/-
How the scopes of a program come about, step by step.

`Account` says what scopes under construction hold: each belongs to a region, has
the scope of the region around it as its parent, and binds what a log of bindings
in order last bound there. `Adds` says what a stretch of the construction adds:
the scopes of some places, and the bindings of some declarations. Stretches
compose, so visiting a tree adds what its places declare, whatever came before.
-/
import KeyTrace.Proofs.Pointwise
import KeyTrace.Proofs.Scope.Chains
import KeyTrace.Proofs.Scope.Order

namespace KeyTrace.ScopeTree

/-- Bindings in the order in which they are made, each with its scope. -/
abbrev Log := List (ScopeId × Text × Binding)

/-- The last binding of a name in a scope. -/
def Log.last? (log : Log) (i : ScopeId) (name : Text) : Option Binding :=
  log.reverse.findSome? fun l => if l.1 = i ∧ l.2.1 = name then some l.2.2 else none

theorem Log.last?_append (log : Log) (i j : ScopeId) (x y : Text) (b : Binding) :
    Log.last? (log ++ [(i, x, b)]) j y = if j = i ∧ y = x then some b else log.last? j y := by
  simp only [Log.last?, List.reverse_append, List.reverse_singleton, List.singleton_append,
    List.findSome?_cons]
  by_cases h : j = i ∧ y = x
  · simp [h.1, h.2]
  · rw [if_neg h, if_neg fun hj => h ⟨hj.1.symm, hj.2.symm⟩]

theorem Log.last?_of_bound {log : Log} {n i : ScopeId} (h : ∀ l ∈ log, l.1 < n) (hi : n ≤ i)
    (x : Text) : log.last? i x = none := by
  simp only [Log.last?, List.findSome?_eq_none_iff, List.mem_reverse]
  intro l hl
  have hlt : l.1 < i := Nat.lt_of_lt_of_le (h l hl) hi
  rw [if_neg fun hi => absurd hi.1 (Nat.ne_of_lt hlt)]

/-- What is around region `r`, that of scope `i`, is what a parent says. -/
def Around (t : ScopeTree) (i : ScopeId) (r : Place) : (parent : Option ScopeId) → Prop
  | none => r.regions = [r]
  | some j => j < i ∧ ∃ q, t.places[j]? = some q ∧ r.regions = r :: q.regions

/-- The scopes hold the bindings of a log, each in the scope of a region. -/
structure Account (t : ScopeTree) (log : Log) : Prop where
  size : t.places.size = t.scopes.size
  bound : ∀ l ∈ log, l.1 < t.scopes.size
  scope : ∀ {i r}, t.places[i]? = some r → ∃ e, t.scopes.get? i = some e ∧
    e.isFunction = r.stopsVar ∧ t.Around i r e.parent ∧ ∀ x, e.get? x = log.last? i x

namespace Account

variable {t : ScopeTree} {log : Log}

theorem declare (h : Account t log) {i : ScopeId} {r : Place} (hi : t.places[i]? = some r)
    (x : Text) (b : Binding) : Account (t.declare i x b) (log ++ [(i, x, b)]) := by
  have hlt : i < t.scopes.size := by
    rw [← h.size]
    exact (Array.getElem?_eq_some_iff.1 hi).1
  refine ⟨by simp [ScopeTree.declare, h.size], ?_, ?_⟩
  · intro l hl
    rw [List.mem_append, List.mem_singleton] at hl
    simp only [ScopeTree.declare, Scopes.size_declare]
    rcases hl with hl | rfl
    · exact h.bound l hl
    · exact hlt
  · intro j q hq
    obtain ⟨e, he, hf, ha, hb⟩ := h.scope (i := j) hq
    by_cases hj : j = i
    · subst hj
      refine ⟨e.declare x b, by simp [ScopeTree.declare, Scopes.get?_declare, he], hf, ha, ?_⟩
      intro y
      rw [Scope.get?_declare, Log.last?_append, hb]
      simp
    · refine ⟨e, by simp [ScopeTree.declare, Scopes.get?_declare, hj, he], hf, ha, ?_⟩
      intro y
      rw [Log.last?_append, hb]
      simp [hj]

theorem openScope (h : Account t log) {p : Place} {parent : Option ScopeId} {isFunction : Bool}
    (hf : (isFunction || parent.isNone) = p.stopsVar) (ha : t.Around t.scopes.size p parent) :
    Account (t.openScope p parent isFunction) log := by
  have keep : ∀ {j : ScopeId} {q : Place}, t.places[j]? = some q →
      (t.places.push p)[j]? = some q := by
    intro j q hq
    have hlt := (Array.getElem?_eq_some_iff.1 hq).1
    rw [Array.getElem?_push, if_neg (Nat.ne_of_lt hlt), hq]
  have around : ∀ {i r parent}, t.Around i r parent →
      (t.openScope p parent isFunction).Around i r parent := by
    intro i r parent ha
    cases parent with
    | none => exact ha
    | some j =>
      obtain ⟨hlt, q, hq, hr⟩ := ha
      exact ⟨hlt, q, keep hq, hr⟩
  refine ⟨by simp [ScopeTree.openScope, h.size], ?_, ?_⟩
  · intro l hl
    simp only [ScopeTree.openScope, Scopes.size_push]
    exact Nat.lt_succ_of_lt (h.bound l hl)
  · intro j q hq
    simp only [ScopeTree.openScope, Array.getElem?_push] at hq
    simp only [ScopeTree.openScope, Scopes.get?_push]
    rw [← h.size]
    -- The new scope has no declarations yet, and the others are what they were.
    split at hq
    · next hj =>
      cases hq
      subst hj
      refine ⟨_, if_pos rfl, hf, ?_, ?_⟩
      · rw [h.size]
        exact around ha
      · intro x
        rw [Log.last?_of_bound h.bound (Nat.le_of_eq h.size.symm)]
        rfl
    · next hj =>
      rw [if_neg hj]
      obtain ⟨e, he, hf', ha', hb⟩ := h.scope hq
      exact ⟨e, he, hf', around ha', hb⟩

/-- The chain of a scope runs through the regions around its region. -/
theorem chain (h : Account t log) : ∀ {i : Nat} {r : Place}, t.places[i]? = some r →
    List.Forall₂ (fun (l : ScopeId × Scope Binding) q =>
      t.places[l.1]? = some q ∧ t.scopes.get? l.1 = some l.2) (t.scopes.chain i) r.regions := by
  intro i
  induction i using Nat.strongRecOn with
  | ind i ih =>
  intro r hr
  obtain ⟨e, he, -, ha, -⟩ := h.scope hr
  rw [Scopes.chain_of_get? he]
  cases hp : e.parent with
  | none =>
    rw [hp] at ha
    rw [show r.regions = [r] from ha]
    exact .cons ⟨hr, he⟩ .nil
  | some j =>
    rw [hp] at ha
    obtain ⟨hlt, q, hq, hrs⟩ := ha
    rw [hrs]
    simp only [hlt, if_true]
    exact .cons ⟨hr, he⟩ (ih j hlt hq)

/-- The scope that `var` is bound in belongs to the innermost function. -/
theorem functionScope (h : Account t log) {i : ScopeId} {r : Place}
    (hr : t.places[i]? = some r) :
    t.places[t.scopes.functionScope i]? = some r.functionRegion := by
  obtain ⟨l, hl, hq, -⟩ := Pointwise.find?_eq_some (f := fun e => e.2.isFunction) (g := Place.stopsVar)
    (fun l q hlq => by
      obtain ⟨e, he, hf, -, -⟩ := h.scope hlq.1
      rw [hlq.2] at he
      cases he
      exact hf)
    (h.chain hr) (Place.find?_stopsVar_regions r)
  simp only [Scopes.functionScope, hl, Option.map_some, Option.getD_some, hq]

end Account

/-- The scopes under construction are accounted for. -/
def Sound (t : ScopeTree) : Prop := ∃ log, Account t log

theorem Sound.size {t : ScopeTree} (h : t.Sound) : t.places.size = t.scopes.size := by
  obtain ⟨_, h⟩ := h
  exact h.size

theorem Sound.functionScope {t : ScopeTree} (h : t.Sound) {i : ScopeId} {r : Place}
    (hr : t.places[i]? = some r) :
    t.places[t.scopes.functionScope i]? = some r.functionRegion := by
  obtain ⟨_, h⟩ := h
  exact h.functionScope hr

/-- The bindings of a log are those of some declarations, each in the scope of its region. -/
def Matches (t : ScopeTree) (log : Log) (ds : List Declaration) : Prop :=
  List.Forall₂ (fun l d => t.places[l.1]? = some d.region ∧ l.2 = (d.name, d.binding)) log ds

/-- One stretch of the construction: it makes the scopes of some places and the bindings of some
declarations. -/
structure Adds (t t' : ScopeTree) (ds : List Declaration) (ps : List Place) : Prop where
  places : t'.places.toList = t.places.toList ++ ps.filter Place.isRegion
  owners : ∀ o ∈ t.owners, o ∈ t'.owners
  owned : ∀ o ∈ t'.owners, o ∈ t.owners ∨ ∃ q ∈ ps, q.node.kind.opensScope = true ∧
    q.node.key = o.1 ∧ t'.places[o.2]? = some q.region
  found : ∀ q ∈ ps, q.node.kind.opensScope = true →
    ∃ i, (q.node.key, i) ∈ t'.owners ∧ t'.places[i]? = some q.region
  account : ∀ {log}, Account t log → ∃ more, Account t' (log ++ more) ∧ t'.Matches more ds

namespace Adds

variable {t t₁ t₂ : ScopeTree} {ds ds' : List Declaration} {ps ps' : List Place}

theorem keep (h : Adds t t₁ ds ps) {i : ScopeId} {r : Place} (hr : t.places[i]? = some r) :
    t₁.places[i]? = some r := by
  rw [← Array.getElem?_toList] at hr ⊢
  rw [h.places, List.getElem?_append_left (List.getElem?_eq_some_iff.1 hr).1, hr]

theorem sound (h : Adds t t₁ ds ps) (hs : t.Sound) : t₁.Sound := by
  obtain ⟨_, hlog⟩ := hs
  obtain ⟨_, hmore, _⟩ := h.account hlog
  exact ⟨_, hmore⟩

theorem refl (t : ScopeTree) : Adds t t [] [] where
  places := by simp
  owners := fun _ ho => ho
  owned := fun _ ho => .inl ho
  found := by simp
  account := fun {log} h => ⟨[], by simpa using h, .nil⟩

theorem trans (h : Adds t t₁ ds ps) (h' : Adds t₁ t₂ ds' ps') :
    Adds t t₂ (ds ++ ds') (ps ++ ps') where
  places := by rw [h'.places, h.places, List.filter_append, List.append_assoc]
  owners := fun o ho => h'.owners o (h.owners o ho)
  owned := by
    intro o ho
    rcases h'.owned o ho with ho | ⟨q, hq, hk⟩
    · rcases h.owned o ho with ho | ⟨q, hq, hs, hk, hp⟩
      · exact .inl ho
      · exact .inr ⟨q, List.mem_append_left _ hq, hs, hk, h'.keep hp⟩
    · exact .inr ⟨q, List.mem_append_right _ hq, hk⟩
  found := by
    intro q hq hs
    rcases List.mem_append.1 hq with hq | hq
    · obtain ⟨i, ho, hp⟩ := h.found q hq hs
      exact ⟨i, h'.owners _ ho, h'.keep hp⟩
    · exact h'.found q hq hs
  account := by
    intro log hlog
    obtain ⟨more, hmore, hm⟩ := h.account hlog
    obtain ⟨rest, hrest, hr⟩ := h'.account hmore
    refine ⟨more ++ rest, by rwa [← List.append_assoc], List.rel_append ?_ hr⟩
    exact hm.imp fun l d hld => ⟨h'.keep hld.1, hld.2⟩

/-- The order in which places are visited matters for the regions among them alone. -/
theorem reorder (h : Adds t t₁ ds ps) (hmem : ∀ q, q ∈ ps ↔ q ∈ ps')
    (hr : ps.filter Place.isRegion = ps'.filter Place.isRegion) : Adds t t₁ ds ps' where
  places := by rw [h.places, hr]
  owners := h.owners
  owned := by
    intro o ho
    refine (h.owned o ho).imp_right ?_
    rintro ⟨q, hq, hk⟩
    exact ⟨q, (hmem q).1 hq, hk⟩
  found := fun q hq => h.found q ((hmem q).2 hq)
  account := h.account

theorem declare {i : ScopeId} {r : Place} (hr : t.places[i]? = some r) (x : Text) (b : Binding) :
    Adds t (t.declare i x b) [⟨r, x, b⟩] [] where
  places := by simp [ScopeTree.declare]
  owners := fun _ ho => ho
  owned := fun _ ho => .inl ho
  found := by simp
  account := fun {log} h => ⟨[(i, x, b)], h.declare hr x b, .cons ⟨hr, rfl⟩ .nil⟩

/-- Declaring one thing after another adds all of their declarations. -/
theorem foldl {α : Type} {f : ScopeTree → α → ScopeTree} {g : α → List Declaration} {i : ScopeId}
    {r : Place} (hf : ∀ t a, t.places[i]? = some r → Adds t (f t a) (g a) []) :
    ∀ (l : List α) {t : ScopeTree}, t.places[i]? = some r →
      Adds t (l.foldl f t) (l.flatMap g) []
  | [], t, _ => refl t
  | a :: l, t, hr => by
    have ha := hf t a hr
    exact ha.trans (foldl hf l (ha.keep hr))

section Declaring

variable (source : Source) {i : ScopeId} {r : Place}

theorem declareNames (hr : t.places[i]? = some r) (names : List Place) (b : Place → Binding) :
    Adds t (names.foldl (fun t n => t.declare i (n.node.text source) (b n)) t)
      (names.map fun n => ⟨r, n.node.text source, b n⟩) [] := by
  rw [List.map_eq_flatMap]
  exact foldl (fun _ n h => declare h (n.node.text source) (b n)) names hr

theorem declarePattern (hr : t.places[i]? = some r) (pattern : Option Place) (d : Place) :
    Adds t (t.declarePattern source i pattern d)
      (Declaration.ofPattern source r pattern (.other d)) [] := by
  cases pattern with
  | none => exact refl t
  | some p => exact declareNames source hr p.patternNames fun _ => .other d

theorem declareVariable (hr : t.places[i]? = some r) (d : Place) :
    Adds t (declareVariable source i t d) (Declaration.ofVariable source r d) [] := by
  simp only [ScopeTree.declareVariable, Declaration.ofVariable]
  split
  · exact refl t
  · cases d.child? .name with
    | none => exact refl t
    | some n =>
      dsimp only
      split
      · exact declare hr _ _
      · exact declarePattern source hr _ _

theorem declareParameters {f : Place} (hr : t.places[i]? = some f) :
    Adds t ((parametersOf f).zipIdx.foldl (declareParameter source i f) t)
      (Declaration.ofParameters source f) [] :=
  foldl (fun _ p h => declareNames source h p.1.patternNames fun n => .parameter n f p.2 _) _ hr

end Declaring

theorem openScope_place (hs : t.Sound) (p : Place)
    (parent : Option ScopeId) (isFunction : Bool) :
    (t.openScope p parent isFunction).places[t.scopes.size]? = some p := by
  simp only [ScopeTree.openScope]
  rw [← hs.size, Array.getElem?_push, if_pos rfl]

/-- A scope is made for a region that has another around it. -/
theorem openScope {i : ScopeId} {n a : Node} {as : List Node} {isFunction : Bool}
    (hr : t.places[i]? = some (Place.region ⟨a, as⟩))
    (hp : Place.isRegion ⟨n, a :: as⟩ = true) (hf : isFunction = n.kind.isFunction)
    (hs : t.Sound) :
    Adds t (t.openScope ⟨n, a :: as⟩ (some i) isFunction) [] [⟨n, a :: as⟩] := by
  have hnew : (t.openScope ⟨n, a :: as⟩ (some i) isFunction).places[t.scopes.size]? =
      some (Place.region ⟨n, a :: as⟩) := by
    rw [Place.region_of_isRegion hp, openScope_place hs]
  refine ⟨by simp [ScopeTree.openScope, hp], fun o ho => List.mem_cons_of_mem _ ho, ?_, ?_, ?_⟩
  · intro o ho
    simp only [ScopeTree.openScope, List.mem_cons] at ho
    rcases ho with rfl | ho
    · exact .inr ⟨_, List.mem_singleton.2 rfl, Place.opensScope_of_isRegion hp, rfl, hnew⟩
    · exact .inl ho
  · intro q hq _
    rw [List.mem_singleton.1 hq]
    exact ⟨t.scopes.size, List.mem_cons_self, hnew⟩
  · intro log h
    refine ⟨[], ?_, .nil⟩
    rw [List.append_nil]
    refine h.openScope (by simp [Place.stopsVar, hf]) ⟨?_, _, hr, ?_⟩
    · rw [← h.size]
      exact (Array.getElem?_eq_some_iff.1 hr).1
    · rw [Place.regions_region, Place.regions_of_isRegion hp]

/-- The body of a function gets the scope of the function. -/
theorem shareScope {i : ScopeId} {b : Place} (hr : t.places[i]? = some b.region)
    (hb : b.isRegion = false) (hk : b.node.kind.opensScope = true) :
    Adds t (t.shareScope b.node i) [] [b] where
  places := by simp [ScopeTree.shareScope, hb]
  owners := fun o ho => List.mem_cons_of_mem _ ho
  owned := by
    intro o ho
    simp only [ScopeTree.shareScope, List.mem_cons] at ho
    rcases ho with rfl | ho
    · exact .inr ⟨b, List.mem_singleton.2 rfl, hk, rfl, hr⟩
    · exact .inl ho
  found := by
    intro q hq _
    rw [List.mem_singleton.1 hq]
    exact ⟨i, List.mem_cons_self, hr⟩
  account := by
    intro log h
    refine ⟨[], ?_, .nil⟩
    rw [List.append_nil]
    exact ⟨h.size, h.bound, h.scope⟩

/-- A place that opens no scope is passed. -/
theorem pass {p : Place} (h : Adds t t₁ ds []) (hp : p.isRegion = false)
    (hk : p.node.kind.opensScope = false) : Adds t t₁ ds [p] where
  places := by simpa [hp] using h.places
  owners := h.owners
  owned := by
    intro o ho
    rcases h.owned o ho with ho | ⟨q, hq, _⟩
    · exact .inl ho
    · simp at hq
  found := by
    intro q hq hs
    rw [List.mem_singleton.1 hq, hk] at hs
    cases hs
  account := h.account

section Entering

variable (source : Source) {i : ScopeId} {n a : Node} {as : List Node}

theorem ite (h : Adds t t₁ ds []) (c : Prop) [Decidable c] :
    Adds t (if c then t₁ else t) (if c then ds else []) [] := by
  split
  · exact h
  · exact refl t

/-- Where no place is visited, no scope is made. -/
theorem scopes_size (h : Adds t t₁ ds []) (hs : t.Sound) :
    t₁.scopes.size = t.scopes.size := by
  rw [← (h.sound hs).size, ← hs.size, ← Array.length_toList, h.places]
  simp

theorem atPlace_function {f : Place} (hf : f.node.kind.isFunction = true) :
    Declaration.atPlace source f =
      (if f.node.kind == .functionDeclaration || f.node.kind == .generatorFunctionDeclaration then
        Declaration.ofPattern source f.outerRegion (f.child? .name) (.other f) else []) ++
      (if f.node.kind == .functionExpression || f.node.kind == .generatorFunction then
        Declaration.ofPattern source f (f.child? .name) (.other f) else []) ++
      Declaration.ofParameters source f := by
  unfold Declaration.atPlace
  cases hk : f.node.kind <;> simp_all [Kind.isFunction]

/-- Entering a function makes its scope and binds its name and its parameters. -/
theorem enterFunction (hr : t.places[i]? = some (Place.region ⟨a, as⟩))
    (hs : t.Sound) (hn : n.kind.isFunction = true) :
    Adds t (enterFunction source t i ⟨n, a :: as⟩) (Declaration.atPlace source ⟨n, a :: as⟩)
        [⟨n, a :: as⟩] ∧
      (enterFunction source t i ⟨n, a :: as⟩).places[t.scopes.size]? =
        some (Place.region ⟨n, a :: as⟩) := by
  have hp : Place.isRegion ⟨n, a :: as⟩ = true := by simp [Place.isRegion, hn]
  rw [Place.region_of_isRegion hp, atPlace_function source hn]
  unfold ScopeTree.enterFunction
  -- The name of a declaration is bound outside, before the scope is made.
  have h₀ := (declarePattern source hr (Place.child? ⟨n, a :: as⟩ .name)
    ⟨n, a :: as⟩).ite (n.kind == .functionDeclaration || n.kind == .generatorFunctionDeclaration)
  have hsize := h₀.scopes_size hs
  have h₁ := openScope (h₀.keep hr) hp hn.symm (h₀.sound hs)
  have hown := openScope_place (h₀.sound hs) ⟨n, a :: as⟩ (some i) true
  have h₂ := (declarePattern source hown (Place.child? ⟨n, a :: as⟩ .name)
    ⟨n, a :: as⟩).ite (n.kind == .functionExpression || n.kind == .generatorFunction)
  have h₃ := declareParameters source (h₂.keep hown)
  refine ⟨?_, ?_⟩
  · have h := h₀.trans (h₁.trans (h₂.trans h₃))
    simpa only [Place.outerRegion_cons, List.nil_append, List.append_nil, List.append_assoc] using h
  · rw [hsize] at hown
    exact h₃.keep (h₂.keep hown)

/-- Entering a block makes its scope and binds the names of its head. -/
theorem enterBlock (hr : t.places[i]? = some (Place.region ⟨a, as⟩)) (hs : t.Sound)
    (hf : n.kind.isFunction = false) (ho : n.kind.opensBlock = true)
    (hb : Place.isBody ⟨n, a :: as⟩ = false) :
    Adds t (enterBlock source t i ⟨n, a :: as⟩) (Declaration.atPlace source ⟨n, a :: as⟩)
        [⟨n, a :: as⟩] ∧
      (enterBlock source t i ⟨n, a :: as⟩).places[t.scopes.size]? =
        some (Place.region ⟨n, a :: as⟩) := by
  have hp : Place.isRegion ⟨n, a :: as⟩ = true := by simp [Place.isRegion, ho, hb]
  rw [Place.region_of_isRegion hp]
  have h₁ := openScope hr hp hf.symm hs
  have hown := openScope_place hs ⟨n, a :: as⟩ (some i) false
  suffices h : Adds (t.openScope ⟨n, a :: as⟩ (some i) false)
      (ScopeTree.enterBlock source t i ⟨n, a :: as⟩)
      (Declaration.atPlace source ⟨n, a :: as⟩) [] from
    ⟨h₁.trans h, h.keep hown⟩
  unfold ScopeTree.enterBlock Declaration.atPlace
  cases hk : n.kind with
  | catchClause => exact declarePattern source hown _ _
  | forInStatement w =>
    cases w with
    | none => exact refl _
    | some w =>
      cases w with
      | var =>
        have hfun := (h₁.sound hs).functionScope hown
        exact declarePattern source hfun _ _
      | lets => exact declarePattern source hown _ _
      | const => exact declarePattern source hown _ _
  | statementBlock => exact refl _
  | forStatement => exact refl _
  | switchBody => exact refl _
  | _ => simp [hk, Kind.opensBlock] at ho

/-- A node that opens no scope binds what it declares in the scopes around it. -/
theorem enterDeclaration (hr : t.places[i]? = some (Place.region ⟨a, as⟩)) (hs : t.Sound)
    (hf : n.kind.isFunction = false) (ho : n.kind.opensBlock = false) :
    Adds t (enterDeclaration source t i ⟨n, a :: as⟩) (Declaration.atPlace source ⟨n, a :: as⟩)
      [⟨n, a :: as⟩] := by
  have hp : Place.isRegion ⟨n, a :: as⟩ = false := by simp [Place.isRegion, hf, ho]
  refine pass ?_ hp (by simp [Kind.opensScope, hf, ho])
  rw [← Place.region_of_not_isRegion hp] at hr
  unfold ScopeTree.enterDeclaration Declaration.atPlace
  cases hk : n.kind with
  | lexicalDeclaration => exact foldl (fun _ d h => declareVariable source h d) _ hr
  | variableDeclaration =>
    have hfun := hs.functionScope hr
    rw [Place.functionRegion_region] at hfun
    exact foldl (fun _ d h => declareVariable source h d) _ hfun
  | classDeclaration => exact declarePattern source hr _ _
  | functionDeclaration | generatorFunctionDeclaration | functionExpression | generatorFunction
  | arrowFunction | methodDefinition => simp [hk, Kind.isFunction] at hf
  | catchClause | forInStatement => simp [hk, Kind.opensBlock] at ho
  | _ => exact refl _

end Entering

end Adds

/-- A stretch of visits adds what the visited places declare. -/
def Visits (source : Source) (t t' : ScopeTree) (ps : List Place) : Prop :=
  Adds t t' (ps.flatMap (Declaration.atPlace source)) ps

namespace Visits

variable {source : Source} {t t₁ t₂ : ScopeTree} {ps ps' : List Place}

theorem place {p : Place} (h : Adds t t₁ (Declaration.atPlace source p) [p]) :
    Visits source t t₁ [p] := by
  rwa [Visits, List.flatMap_cons, List.flatMap_nil, List.append_nil]

theorem trans (h : Visits source t t₁ ps) (h' : Visits source t₁ t₂ ps') :
    Visits source t t₂ (ps ++ ps') := by
  rw [Visits, List.flatMap_append]
  exact Adds.trans h h'

/-- A place that declares nothing and has no region can be counted later. -/
theorem later {p : Place} (hp : p.isRegion = false) (hd : Declaration.atPlace source p = [])
    (h : Visits source t t₁ (p :: (ps ++ ps'))) : Visits source t t₁ (ps ++ p :: ps') := by
  simp only [Visits, List.flatMap_append, List.flatMap_cons, hd, List.nil_append] at h ⊢
  refine Adds.reorder h (fun q => ?_) (by simp [hp])
  simp only [List.mem_cons, List.mem_append]
  exact or_left_comm

end Visits

section Body

variable {f b : Node} {as : List Node}

/-- The body of a function is no region of its own. -/
theorem isRegion_body (hf : f.kind.isFunction = true) (hb : bodyBlock? f = some b) :
    Place.isRegion ⟨b, f :: as⟩ = false := by
  have hbf : b.kind.isFunction = false := by rw [(bodyBlock?_eq_some hb).2]; rfl
  simp [Place.isRegion, Place.isBody, hf, hb, hbf]

theorem atPlace_body (source : Source) (hb : bodyBlock? f = some b) :
    Declaration.atPlace source ⟨b, f :: as⟩ = [] := by
  simp [Declaration.atPlace, (bodyBlock?_eq_some hb).2]

end Body

mutual

theorem visit_adds (source : Source) : ∀ (n : Node) {a : Node} {as : List Node} {i : ScopeId}
    {t : ScopeTree}, t.places[i]? = some (Place.region ⟨a, as⟩) → t.Sound →
    Place.isBody ⟨n, a :: as⟩ = false →
    Visits source t (visit source (a :: as) i t n) (Place.codeOf (a :: as) n)
  | .mk r k s cs, a, as, i, t, hr, hs, hb => by
    simp only [visit, Place.codeOf]
    cases hf : k.isFunction with
    | true =>
      have ⟨h₁, hown⟩ := Adds.enterFunction source (n := .mk r k s cs) hr hs hf
      rw [if_pos rfl, if_pos rfl]
      cases hfb : bodyBlock? (.mk r k s cs) with
      | none =>
        exact (Visits.place h₁).trans (visitAll_adds source cs hown (h₁.sound hs) fun _ => hfb)
      | some b =>
        have ⟨hb, hkind⟩ := bodyBlock?_eq_some hfb
        -- The braces of the body are no region: they share the scope of the function, and what is in
        -- them is visited behind the other children.
        have hreg : Place.isRegion ⟨b, .mk r k s cs :: a :: as⟩ = false := isRegion_body hf hfb
        have hd : Declaration.atPlace source ⟨b, .mk r k s cs :: a :: as⟩ = [] :=
          atPlace_body source hfb
        have hbown := hown
        rw [← Place.region_of_not_isRegion hreg] at hbown
        have h₂ := Adds.shareScope (b := ⟨b, .mk r k s cs :: a :: as⟩) hbown hreg
          (by simp [Kind.opensScope, Kind.opensBlock, hkind])
        rw [← hd] at h₂
        have h₃ := visitOthers_adds source cs (h₂.keep hown) (h₂.sound (h₁.sound hs)) hfb
        have h₄ := visitBody_adds source cs (h₃.keep (h₂.keep hbown))
          (h₃.sound (h₂.sound (h₁.sound hs))) (by rw [hkind]; rfl) hb
        dsimp only
        rw [Place.codeOfBody_eq (l := cs) hb hkind, Place.codeOf_eq (by rw [hkind]; rfl)]
        exact (Visits.place h₁).trans (.later hreg hd ((Visits.place h₂).trans (h₃.trans h₄)))
    | false =>
      rw [if_neg Bool.false_ne_true, if_neg Bool.false_ne_true]
      have ha : (Node.mk r k s cs).kind.isFunction = true →
          bodyBlock? (.mk r k s cs) = none := fun h => absurd (hf.symm.trans h) (by simp)
      cases ho : k.opensBlock with
      | true =>
        have ⟨h₁, hown⟩ := Adds.enterBlock source (n := .mk r k s cs) hr hs hf ho hb
        exact (Visits.place h₁).trans (visitAll_adds source cs hown (h₁.sound hs) ha)
      | false =>
        have h₁ := Adds.enterDeclaration source (n := .mk r k s cs) hr hs hf ho
        have hreg : Place.isRegion ⟨.mk r k s cs, a :: as⟩ = false := by
          simp [Place.isRegion, Node.kind, hf, ho]
        have hown := h₁.keep hr
        rw [← Place.region_of_not_isRegion hreg] at hown
        exact (Visits.place h₁).trans (visitAll_adds source cs hown (h₁.sound hs) ha)

theorem visitAll_adds (source : Source) : ∀ (l : List Node) {a : Node} {as : List Node}
    {i : ScopeId} {t : ScopeTree}, t.places[i]? = some (Place.region ⟨a, as⟩) → t.Sound →
    (a.kind.isFunction = true → bodyBlock? a = none) →
    Visits source t (visitAll source (a :: as) i t l) (Place.codeOfAll (a :: as) l)
  | [], a, as, i, t, _, _, _ => Adds.refl t
  | c :: l, a, as, i, t, hr, hs, ha => by
    simp only [visitAll, Place.codeOfAll]
    split
    · exact visitAll_adds source l hr hs ha
    · have hb : Place.isBody ⟨c, a :: as⟩ = false := by
        cases hf : a.kind.isFunction with
        | true => simp [Place.isBody, ha hf]
        | false => simp [Place.isBody, hf]
      have hc := visit_adds source c hr hs hb
      exact hc.trans (visitAll_adds source l (hc.keep hr) (hc.sound hs) ha)

theorem visitOthers_adds (source : Source) : ∀ (l : List Node) {f b : Node} {as : List Node}
    {i : ScopeId} {t : ScopeTree}, t.places[i]? = some (Place.region ⟨f, as⟩) → t.Sound →
    bodyBlock? f = some b →
    Visits source t (visitOthers source (f :: as) i b.key t l)
      (Place.codeOfOthers (f :: as) b.key l)
  | [], f, b, as, i, t, _, _, _ => Adds.refl t
  | c :: l, f, b, as, i, t, hr, hs, hfb => by
    simp only [visitOthers, Place.codeOfOthers]
    split
    · exact visitOthers_adds source l hr hs hfb
    · next hcb =>
      have hb : Place.isBody ⟨c, f :: as⟩ = false := by
        simp only [Bool.or_eq_true, beq_iff_eq, not_or] at hcb
        simp [Place.isBody, hfb, Ne.symm hcb.2]
      have hc := visit_adds source c hr hs hb
      exact hc.trans (visitOthers_adds source l (hc.keep hr) (hc.sound hs) hfb)

theorem visitBody_adds (source : Source) : ∀ (l : List Node) {b f : Node} {as : List Node}
    {i : ScopeId} {t : ScopeTree}, t.places[i]? = some (Place.region ⟨b, f :: as⟩) → t.Sound →
    b.kind.isFunction = false → (l.find? fun c => c.role == .body) = some b →
    Visits source t (visitBody source (f :: as) i b.key t l)
      (Place.codeOfAll (b :: f :: as) b.allChildren)
  | .mk r k s cs :: l, b, f, as, i, t, hr, hs, hf, hb => by
    rw [List.find?_cons] at hb
    unfold visitBody
    split at hb
    · next hrole =>
      cases hb
      rw [if_pos (by simpa [Node.role] using hrole)]
      exact visitAll_adds source cs hr hs fun h => nomatch hf.symm.trans h
    · next hrole =>
      rw [if_neg (by simp_all [Node.role])]
      exact visitBody_adds source l hr hs hf hb

end

end KeyTrace.ScopeTree
