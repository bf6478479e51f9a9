/-
Comments are invisible.

Take two trees over the same source of which one has some of the comments of the
other. They are the same without any comments, so their scopes bind the same names to
the same places up to comments, the workplaces made of them go together scope by
scope, and whatever is folded, found or looked up in one is in the other.
-/
import KeyTrace.Proofs.Analysis.Erasure
import KeyTrace.Proofs.Fold.Shadowing
import KeyTrace.Proofs.Grammar.Comments
import KeyTrace.Proofs.Scope.Comments

namespace KeyTrace

open Accessor (Workplace)
open Node (coreOf)

section Stripped

variable (source : Source)

namespace Accessor

theorem calleeName?_strip (call : Node) : calleeName? source call.strip = calleeName? source call := by
  rw [calleeName?, calleeName?, Node.child?_strip _ (by decide)]
  cases call.child? .function with
  | none => rfl
  | some f =>
    rw [Option.map_some]
    dsimp only
    rw [Node.shape_strip, Node.text_strip, Node.child?_strip _ (by decide)]
    cases f.child? .property with
    | none => rfl
    | some p => simp only [Option.map_some, Node.kind_strip, Node.text_strip]

/-- An initializer, or what it waits for. -/
def awaited? (init : Option Node) : Option Node :=
  init.bind fun n => if n.shape = .await then n.firstChild? else some n

theorem awaited?_strip (init : Option Node) :
    awaited? (init.map Node.strip) = (awaited? init).map Node.strip := by
  cases init with
  | none => rfl
  | some n =>
    simp only [awaited?, Option.map_some, Option.bind_some, Node.shape_strip,
      Node.firstChild?_strip]
    split <;> rfl

/-- A call of a function that makes an accessor. -/
def isMaking (n : Node) : Bool :=
  n.shape == .call && (calleeName? source n).any makers.contains

theorem call?_eq (init : Option Node) : call? source init = (awaited? init).filter (isMaking source) := by
  unfold call? awaited?
  cases init with
  | none => rfl
  | some n =>
    simp only [Option.bind_some]
    cases (if n.shape = .await then n.firstChild? else some n) with
    | none => rfl
    | some c =>
      simp only [Option.filter_some, isMaking]
      by_cases hs : c.shape = .call
      · obtain ⟨callee, hc⟩ : ∃ callee, calleeName? source c = callee := ⟨_, rfl⟩
        cases callee with
        | none => simp [hs, hc]
        | some name => simp [hs, hc]
      · simp [hs]

/-- The call that makes an accessor is the same without comments. -/
theorem call?_strip (init : Option Node) :
    call? source (init.map Node.strip) = (call? source init).map Node.strip := by
  rw [call?_eq, call?_eq, awaited?_strip, Option.filter_map]
  congr 2
  funext n
  rw [Function.comp_apply, isMaking, isMaking, Node.shape_strip, calleeName?_strip]

end Accessor

namespace Usage

theorem lookupVariable?_strip (call : Node) :
    lookupVariable? source call.strip = lookupVariable? source call := by
  rw [lookupVariable?, lookupVariable?, Node.child?_strip _ (by decide)]
  cases call.child? .function with
  | none => rfl
  | some f =>
    rw [Option.map_some]
    dsimp only
    rw [Node.shape_strip, Node.text_strip, Node.child?_strip _ (by decide),
      Node.child?_strip _ (by decide)]
    cases f.child? .object with
    | none => rfl
    | some o =>
      cases f.child? .property with
      | none => rfl
      | some p => simp only [Option.map_some, Node.kind_strip, Node.shape_strip, Node.text_strip]

/-- What a function maps over is the same without comments. -/
theorem mapCall?_strip (function : Place) :
    mapCall? source function.strip =
      (mapCall? source function).map fun m => (m.1.strip, m.2.strip) := by
  unfold mapCall?
  rw [Place.up?_strip]
  cases function.up? with
  | none => rfl
  | some args =>
    simp only [Option.map_some, Place.node_strip, Node.kind_strip, Node.children_strip,
      List.length_map, Place.up?_strip]
    split
    · rfl
    · cases args.up? with
      | none => rfl
      | some call =>
        simp only [Option.map_some, Place.node_strip, Node.shape_strip,
          Node.child?_strip call.node (r := .function) (by decide)]
        split
        · rfl
        · cases call.node.child? .function with
          | none => rfl
          | some callee =>
            simp only [Option.map_some, Node.shape_strip,
              Node.child?_strip callee (r := .property) (by decide),
              Node.child?_strip callee (r := .object) (by decide)]
            split
            · rfl
            · cases callee.child? .property with
              | none => rfl
              | some p =>
                cases callee.child? .object with
                | none => rfl
                | some o =>
                  simp only [Option.map_some, Node.text_strip, Node.shape_strip]
                  split <;> rfl

end Usage

end Stripped

section Together

variable {w w' : Workplace}

/-- Two workplaces over the same source differ in nothing but comments. -/
structure Accessor.Workplace.Same (w w' : Workplace) : Prop where
  source : w.source = w'.source
  scopes : w.scopes.strip = w'.scopes.strip
  importer : w.importer = w'.importer
  label : w.label = w'.label

namespace Accessor.Workplace.Same

theorem scopeFor (h : w.Same w') {q q' : Place} (hq : q.strip = q'.strip) :
    w.scopes.scopeFor q = w'.scopes.scopeFor q' := by
  rw [← ScopeTree.scopeFor_strip, ← ScopeTree.scopeFor_strip w'.scopes, h.scopes, hq]

theorem resolve (h : w.Same w') (i : ScopeId) (x : Text) :
    (w.scopes.resolve i x).map Binding.strip = (w'.scopes.resolve i x).map Binding.strip := by
  rw [← ScopeTree.resolve_strip, ← ScopeTree.resolve_strip, h.scopes]

end Accessor.Workplace.Same

theorem Node.core_eq_of_strip_eq {s : Source} {n n' : Node} (h : n.strip = n'.strip) :
    Node.core s n = Node.core s n' := by
  rw [← core_strip, h, core_strip]

theorem Node.coreOf_eq_of_strip_eq {s : Source} {n n' : Option Node}
    (h : n.map strip = n'.map strip) : coreOf s n = coreOf s n' := by
  rw [← coreOf_strip, h, coreOf_strip]

theorem Node.shape_eq_of_strip_eq {n n' : Node} (h : n.strip = n'.strip) : n.shape = n'.shape := by
  rw [← shape_strip, h, shape_strip]

theorem Node.arguments_of_strip_eq {n n' : Node} (h : n.strip = n'.strip) :
    (n.callArguments?.getD []).head?.map strip = (n'.callArguments?.getD []).head?.map strip := by
  have hargs (n : Node) : (n.callArguments?.getD []).head?.map strip =
      (n.strip.callArguments?.getD []).head? := by
    rw [callArguments?_strip]
    cases n.callArguments? with
    | none => rfl
    | some l => simp
  rw [hargs, hargs, h]

theorem Node.callsAlike_of_strip_eq {s : Source} {n n' : Node} (h : n.strip = n'.strip) :
    n.CallsAlike s s n' :=
  Pointwise.option_of_map_eq (fun _ _ h => ⟨core_eq_of_strip_eq h, by rw [shape_eq_of_strip_eq h]⟩)
    (arguments_of_strip_eq h)

/-- What names mean goes together where it is the same without comments. -/
theorem Binding.alike_of_strip_eq (h : w.Same w') : ∀ {b b' : Option Binding},
    b.map strip = b'.map strip → Alike w w' Eq b b'
  | none, none, _ => .none
  | some (.imported i), some (.imported i'), hb => by
    have hi : i.strip = i'.strip := by simpa [strip] using hb
    have hmodule : i.strip.module = i'.strip.module := by rw [hi]
    have hname : i.strip.name = i'.strip.name := by rw [hi]
    change i.module = i'.module at hmodule
    change i.name = i'.name at hname
    refine .imported ?_
    unfold Fold.exportedVariable Import.isNamed
    rw [h.importer, hmodule, hname]
  | some (.declared d), some (.declared d'), hb => by
    have hd : d.strip = d'.strip := by simpa [strip] using hb
    have hvalue : (d.node.child? .value).map Node.strip = (d'.node.child? .value).map Node.strip := by
      rw [← Node.child?_strip _ (by decide), ← Node.child?_strip _ (by decide)]
      exact congrArg (fun q : Place => q.node.child? .value) hd
    refine .declared ?_ ?_ (h.scopeFor hd)
    · rw [← h.source]
      exact Node.coreOf_eq_of_strip_eq hvalue
    · rw [← h.source]
      refine Pointwise.option_of_map_eq
        (fun c c' (hc : c.strip = c'.strip) => Node.callsAlike_of_strip_eq hc) ?_
      rw [← Accessor.call?_strip, ← Accessor.call?_strip, hvalue]
  | some (.parameter n f position simple), some (.parameter n' f' position' simple'), hb => by
    simp only [Option.map_some, strip, Option.some.injEq, Binding.parameter.injEq] at hb
    obtain ⟨-, hf, rfl, rfl⟩ := hb
    refine .parameter ?_
    rw [← h.source]
    refine Pointwise.option_of_map_eq (fun m m' hm => ?_)
      (by rw [← Usage.mapCall?_strip, ← Usage.mapCall?_strip, hf])
    obtain ⟨hcall, hlist⟩ := Prod.mk.inj hm
    exact ⟨Node.core_eq_of_strip_eq hlist, h.scopeFor hcall⟩
  | some (.other d), some (.other d'), _ => .other

/-- Workplaces that differ in nothing but comments go together scope by scope. -/
theorem Accessor.Workplace.Same.alike (h : w.Same w') : w.Alike w' Eq := by
  rintro i _ rfl x
  exact Binding.alike_of_strip_eq h (h.resolve i x)

theorem isEmpty_eq_of_map_head? {α β : Type} {f : α → β} {l l' : List α}
    (h : l.head?.map f = l'.head?.map f) : l.isEmpty = l'.isEmpty := by
  cases l <;> cases l' <;> first | rfl | cases h

namespace Accessor

theorem namespaceAt_same (h : w.Same w') {d d' : Place} (hd : d.strip = d'.strip) {call call' : Node}
    (hcall : call.strip = call'.strip) :
    (w.namespaceAt d call).outcome = (w'.namespaceAt d' call').outcome := by
  have hspan : d.node.span = d'.node.span := by
    rw [← Node.span_strip, ← Node.span_strip d'.node]
    exact congrArg (fun q : Place => q.node.span) hd
  have hof : Namespace.ofKnown call w.label (w.source.line d.node.span.start) =
      Namespace.ofKnown call' w'.label (w'.source.line d'.node.span.start) := by
    funext o
    rw [h.label, h.source, hspan]
    cases o with
    | some s => rfl
    | none =>
      rw [Namespace.ofKnown, Namespace.ofKnown,
        isEmpty_eq_of_map_head? (Node.arguments_of_strip_eq hcall)]
  have halike : call.CallsAlike w.source w'.source call' :=
    h.source ▸ Node.callsAlike_of_strip_eq hcall
  rw [Workplace.namespaceAt, Workplace.namespaceAt, Namespace.resolve_eq, Namespace.resolve_eq, hof,
    ← bind_pure_comp, ← bind_pure_comp]
  exact Traced.bind_outcome_congr
    (Namespace.known_erased (h.alike.context (h.scopeFor hd)) halike) fun _ => rfl

theorem ofDeclarator_same (h : w.Same w') {d d' : Place} (hd : d.strip = d'.strip) :
    (ofDeclarator w d).outcome = (ofDeclarator w' d').outcome := by
  have hnode : d.node.strip = d'.node.strip := congrArg Place.node hd
  have hspan : d.node.span = d'.node.span := by rw [← Node.span_strip, hnode, Node.span_strip]
  have hchild {r : Role} (hr : r ≠ .none) :
      (d.node.child? r).map Node.strip = (d'.node.child? r).map Node.strip := by
    rw [← Node.child?_strip _ hr, hnode, Node.child?_strip _ hr]
  have hname : Option.Rel (fun n n' : Node => n.strip = n'.strip) (d.node.child? .name)
      (d'.node.child? .name) := Pointwise.option_of_map_eq (fun _ _ h => h) (hchild (by decide))
  have hcall : Option.Rel (fun c c' : Node => c.strip = c'.strip)
      (call? w.source (d.node.child? .value)) (call? w'.source (d'.node.child? .value)) := by
    refine Pointwise.option_of_map_eq (fun _ _ h => h) ?_
    rw [← call?_strip, ← call?_strip, hchild (by decide), h.source]
  unfold ofDeclarator
  generalize d.node.child? .name = n at hname
  generalize d'.node.child? .name = n' at hname
  cases hname with
  | none => rfl
  | @some n n' hn =>
    have hkind : n.kind = n'.kind := by rw [← Node.kind_strip, hn, Node.kind_strip]
    have htext : n.text w.source = n'.text w'.source := by
      rw [← Node.text_strip, hn, Node.text_strip, h.source]
    dsimp only
    rw [hkind]
    split
    · rfl
    · generalize call? w.source (d.node.child? .value) = c at hcall
      generalize call? w'.source (d'.node.child? .value) = c' at hcall
      cases hcall with
      | none => rfl
      | some hc =>
        refine Traced.bind_outcome_congr (namespaceAt_same h hd hc) fun ns => ?_
        rw [htext, hspan, h.source]

end Accessor

namespace Usage

theorem hasPlainObject_strip (a : Node) : HasPlainObject a.strip ↔ HasPlainObject a := by
  constructor
  · rintro ⟨m', hm', hs, o', ho', h⟩
    rw [Node.unwrap?_strip, Option.map_eq_some_iff] at hm'
    obtain ⟨m, hm, rfl⟩ := hm'
    rw [Node.child?_strip _ (by decide), Option.map_eq_some_iff] at ho'
    obtain ⟨o, ho, rfl⟩ := ho'
    rw [Node.shape_strip] at hs h
    exact ⟨m, hm, hs, o, ho, h⟩
  · rintro ⟨m, hm, hs, o, ho, h⟩
    refine ⟨m.strip, by rw [Node.unwrap?_strip, hm]; rfl, by rwa [Node.shape_strip], o.strip, ?_,
      by rwa [Node.shape_strip]⟩
    rw [Node.child?_strip _ (by decide), ho]
    rfl

theorem ofCall_same (h : w.Same w') {call call' : Place} (hc : call.strip = call'.strip)
    (m : Fallback) (delimiter : Text) :
    (ofCall w m delimiter call).outcome = (ofCall w' m delimiter call').outcome := by
  have hnode : call.node.strip = call'.node.strip := congrArg Place.node hc
  have hv : lookupVariable? w.source call.node = lookupVariable? w'.source call'.node := by
    rw [← lookupVariable?_strip, hnode, lookupVariable?_strip, h.source]
  cases hname : lookupVariable? w.source call.node with
  | none =>
    have hname' := hv.symm.trans hname
    simp only [ofCall, hname, hname']
  | some name =>
    have hscope := h.scopeFor hc
    rw [ofCall_eq m hname, ofCall_eq m (hv.symm.trans hname)]
    refine Traced.bind_outcome_congr (ownNamespace_erased h.alike hscope name) fun own => ?_
    split
    · rfl
    · have hargs := Node.arguments_of_strip_eq hnode
      unfold through
      generalize call.node.callArguments?.getD [] = args at hargs
      generalize call'.node.callArguments?.getD [] = args' at hargs
      rcases args with _ | ⟨a, rest⟩ <;> rcases args' with _ | ⟨a', rest'⟩
      · rfl
      · cases hargs
      · cases hargs
      · have ha : a.strip = a'.strip := Option.some.inj hargs
        have hspan : a.span = a'.span := by rw [← Node.span_strip, ha, Node.span_strip]
        have hplain : HasPlainObject a ↔ HasPlainObject a' := by
          rw [← hasPlainObject_strip, ha, hasPlainObject_strip]
        have hcore : Node.core w.source a = Node.core w'.source a' :=
          h.source ▸ Node.core_eq_of_strip_eq ha
        refine Traced.bind_outcome_congr (localKeys_erased h.alike hscope hcore hplain) fun keys => ?_
        rw [atCall, atCall, hspan, Node.shape_eq_of_strip_eq ha, h.source]

end Usage

end Together

/-- The places of a tree that are no comments. -/
def Node.codePlaces (root : Node) : List Place :=
  (Place.root root).preorder.filter fun q => !q.node.isComment

section Analyses

variable {p p' : Program}

theorem Program.strip_eq_of_loses (hsource : p.source = p'.source) (h : p.root.Loses p'.root) :
    p.strip = p'.strip := by
  rw [strip, strip, hsource, h.strip_eq]

/-- The scopes of programs that differ in nothing but comments are the same without comments. -/
theorem ScopeTree.map_strip_eq_of_loses (hsource : p.source = p'.source)
    (h : p.root.Loses p'.root) :
    (ScopeTree.ofProgram p).map strip = (ScopeTree.ofProgram p').map strip := by
  rw [← ofProgram_strip, ← ofProgram_strip, Program.strip_eq_of_loses hsource h]

/-- The places of a kind go together. -/
theorem Accessor.Workplace.forall₂_placesOf {w w' : Workplace}
    (h : w.program.root.Loses w'.program.root) {k : Kind} (hk : k ≠ .comment) :
    List.Forall₂ (fun q q' => q.strip = q'.strip) (w.placesOf k) (w'.placesOf k) := by
  have hplaces (w : Workplace) : w.placesOf k =
      w.program.root.codePlaces.filter fun q => q.node.kind == k := by
    rw [Workplace.placesOf, Node.codePlaces, List.filter_filter]
    refine List.filter_congr fun q _ => ?_
    by_cases hq : q.node.kind = k
    · simp [hq, Node.isComment, hk]
    · simp [hq]
  have hkind : ∀ q q' : Place, q.Loses q' → ((q.node.kind == k) = true ↔ (q'.node.kind == k) = true) :=
    fun q q' hq => by rw [hq.node.top.2.1]
  rw [hplaces, hplaces]
  exact (List.rel_filter (fun q q' hq => hkind q q' hq)
    (Place.loses_preorderOf .nil h)).imp fun _ _ hq => hq.strip_eq

theorem Accessor.ofProgram_same {w w' : Workplace} (hw : w.Same w')
    (h : w.program.root.Loses w'.program.root) :
    (ofProgram w).outcome = (ofProgram w').outcome := by
  have hplaces := Workplace.forall₂_placesOf h (k := .variableDeclarator) (by nofun)
  exact Traced.bind_outcome_congr
    (Traced.congruence_outcome.mapM (hplaces.imp fun _ _ hq => ofDeclarator_same hw hq)) fun _ => rfl

theorem Usage.ofProgram_same {w w' : Workplace} (hw : w.Same w')
    (h : w.program.root.Loses w'.program.root) (m : Fallback) (delimiter : Text) :
    (ofProgram w m delimiter).outcome = (ofProgram w' m delimiter).outcome := by
  have hplaces := Accessor.Workplace.forall₂_placesOf h (k := .callExpression) (by nofun)
  exact Traced.bind_outcome_congr
    (Traced.congruence_outcome.mapM (hplaces.imp fun _ _ hq => ofCall_same hw hq m delimiter))
    fun _ => rfl

/-- What comes to the same in workplaces that differ in nothing but comments comes to the same for
programs that do. -/
theorem Accessor.Workplace.bind_ofProgram_of_loses {α : Type} {f : Workplace → Traced α}
    (hf : ∀ w w' : Workplace, w.Same w' → w.program.root.Loses w'.program.root →
      (f w).outcome = (f w').outcome)
    (hsource : p.source = p'.source) (h : p.root.Loses p'.root) (importer : Option Importer)
    (label : Text) :
    (Workplace.ofProgram p importer label >>= f).outcome =
      (Workplace.ofProgram p' importer label >>= f).outcome := by
  have hscopes := ScopeTree.map_strip_eq_of_loses hsource h
  simp only [Workplace.ofProgram, bind_assoc, pure_bind]
  cases ht : ScopeTree.ofProgram p with
  | error e =>
    cases ht' : ScopeTree.ofProgram p' with
    | error e' =>
      rw [ht, ht'] at hscopes
      cases hscopes
      rfl
    | ok t' =>
      rw [ht, ht'] at hscopes
      cases hscopes
  | ok t =>
    cases ht' : ScopeTree.ofProgram p' with
    | error e' =>
      rw [ht, ht'] at hscopes
      cases hscopes
    | ok t' =>
      rw [ht, ht'] at hscopes
      rw [Traced.bind_of_ok (Traced.ofCooked_ok_iff.2 rfl),
        Traced.bind_of_ok (Traced.ofCooked_ok_iff.2 rfl)]
      exact hf ⟨p, t, importer, label⟩ ⟨p', t', importer, label⟩
        ⟨hsource, Except.ok.inj hscopes, rfl, rfl⟩ h

/-- Two trees of scopes over the same source are the same but for comments, whatever is asked of
them. -/
structure ScopeTree.Agree (source : Source) (t t' : ScopeTree) : Prop where
  strip : t.strip = t'.strip
  scope : ∀ q q' : Place, q.Loses q' → t.scopeFor q = t'.scopeFor q'
  binding : ∀ i x, (t.resolve i x).map Binding.strip = (t'.resolve i x).map Binding.strip
  fold : ∀ i importer n n', Node.Loses n n' → ∀ depth,
    (Fold.constant (Fold.inScope source t importer i) depth (some n)).outcome =
      (Fold.constant (Fold.inScope source t' importer i) depth (some n')).outcome

theorem ScopeTree.agree_of_loses (hsource : p.source = p'.source) (h : p.root.Loses p'.root)
    {t t' : ScopeTree} (ht : ScopeTree.ofProgram p = .ok t) (ht' : ScopeTree.ofProgram p' = .ok t') :
    ScopeTree.Agree p.source t t' := by
  have hscopes := map_strip_eq_of_loses hsource h
  rw [ht, ht'] at hscopes
  have hstrip : t.strip = t'.strip := Except.ok.inj hscopes
  have hsame (importer : Option Importer) :
      Accessor.Workplace.Same ⟨p, t, importer, []⟩ ⟨p', t', importer, []⟩ :=
    ⟨hsource, hstrip, rfl, rfl⟩
  refine ⟨hstrip, fun q q' hq => (hsame none).scopeFor hq.strip_eq, (hsame none).resolve, ?_⟩
  intro i importer n n' hn depth
  have hctx := (hsame importer).alike.context (i := i) rfl
  have hcore : coreOf p.source (some n) = coreOf p'.source (some n') :=
    hsource ▸ Node.core_eq_of_strip_eq hn.strip_eq
  have hright : Fold.inScope p.source t' importer i = Workplace.context ⟨p', t', importer, []⟩ i := by
    rw [hsource]
    rfl
  rw [hright]
  exact Fold.constant_erased hctx hcore depth

/-- **Comments are invisible.** Take a program and the program without some of the comments in its
tree. Their imports are the same; the places that are no comments go together one by one; their
scopes are the same, up to the comments in the trees that they refer to, wherever a place lies, so
that names have the same bindings and expressions fold to the same; and they have the same accessors
and the same usages. The comments of a program that has been read are all such that they may be left
out. -/
theorem Program.comments_invisible (hsource : p.source = p'.source) (h : p.root.Loses p'.root) :
    (Import.ofProgram p).map (List.map Import.stripNamed) =
        (Import.ofProgram p').map (List.map Import.stripNamed) ∧
      List.Forall₂ Place.Loses p.root.codePlaces p'.root.codePlaces ∧
      (∀ t t', ScopeTree.ofProgram p = .ok t → ScopeTree.ofProgram p' = .ok t' →
        ScopeTree.Agree p.source t t') ∧
      (∀ importer label,
        (Workplace.ofProgram p importer label >>= Accessor.ofProgram).outcome =
            (Workplace.ofProgram p' importer label >>= Accessor.ofProgram).outcome ∧
          ∀ m delimiter,
            (Workplace.ofProgram p importer label >>= (Usage.ofProgram · m delimiter)).outcome =
              (Workplace.ofProgram p' importer label >>= (Usage.ofProgram · m delimiter)).outcome) ∧
      ∀ doc grammars, (read doc grammars).outcome = .ok (some p) →
        ∀ x ∈ p.root.preorder, x.kind = .comment → x.isAside = true := by
  refine ⟨?_, Place.loses_preorderOf .nil h, fun t t' => ScopeTree.agree_of_loses hsource h,
    fun importer label => ⟨?_, fun m delimiter => ?_⟩, fun _ _ hr _ => isAside_of_read hr⟩
  · rw [← Import.ofProgram_strip, ← Import.ofProgram_strip, strip_eq_of_loses hsource h]
  · exact Workplace.bind_ofProgram_of_loses (fun _ _ hw hl => Accessor.ofProgram_same hw hl) hsource h
      importer label
  · exact Workplace.bind_ofProgram_of_loses
      (fun _ _ hw hl => Usage.ofProgram_same hw hl m delimiter) hsource h importer label

end Analyses

/-- The tree of `t(/*c*/'k')`, with some nodes between the parentheses. -/
def Program.bracketed (inside : List Node) : Program where
  source := ⟨(Utf8.encode (text "t(/*c*/'k')")).toArray⟩
  root := .mk .none .program ⟨0, 11⟩
    [.mk .none .otherStatement ⟨0, 11⟩
      [.mk .none .callExpression ⟨0, 11⟩
        [.mk .function .identifier ⟨0, 1⟩ [], .mk .arguments .arguments ⟨1, 11⟩ inside]]]

/-- The tree of the argument in `t(/*c*/'k')`. -/
def Program.bracketedKey : Node :=
  .mk .none .string ⟨7, 10⟩ [.mk .none .stringFragment ⟨8, 9⟩ []]

/-- The usages of a program in which `t` is bound to the namespace `n` from outside. -/
def Program.boundUsages (p : Program) : Except Failure (List Usage) :=
  (Workplace.ofProgram p none [] >>=
    (Usage.ofProgram · [(text "t", some (text "n"))] Usage.defaultDelimiter)).outcome

theorem Program.bracketed_loses :
    (bracketed [.mk .none .comment ⟨2, 7⟩ [], bracketedKey]).root.Loses
      (bracketed [bracketedKey]).root := by
  have hkey : bracketedKey.Loses bracketedKey := .mk (.keep (.mk .nil) .nil)
  exact .mk (.keep (.mk (.keep (.mk (.keep (.mk .nil)
    (.keep (.mk (.drop rfl (.keep hkey .nil))) .nil))) .nil)) .nil)

/-- The usage in `t(/*c*/'k')` does not depend on the comment. -/
theorem Program.comments_invisible_bracketed :
    boundUsages (bracketed [.mk .none .comment ⟨2, 7⟩ [], bracketedKey]) =
        boundUsages (bracketed [bracketedKey]) ∧
      (boundUsages (bracketed [bracketedKey])).toOption.map (List.map Usage.key) =
        some [text "n.k"] := by
  constructor
  · have hsource (inside inside' : List Node) :
        (bracketed inside).source = (bracketed inside').source := rfl
    obtain ⟨-, -, -, hanalyses, -⟩ := comments_invisible (hsource _ _) bracketed_loses
    exact (hanalyses none []).2 _ _
  · decide +kernel

end KeyTrace
