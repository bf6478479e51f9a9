/-
An analysis sees no wrappers where it folds.

Two workplaces go together by a relation between their scopes in which what a name
means in one scope goes with what it means in the other: variables whose initializers
say the same under their wrappers, and make accessors by calls that do; parameters of
functions that are mapped over the same list; the same imports. Where scopes go
together, names come to the same, and so do the namespaces of variables and the keys
that arguments stand for.
-/
import KeyTrace.Proofs.Analysis.Calls
import KeyTrace.Proofs.Fold.Erasure

namespace KeyTrace

open Accessor (Workplace)
open Fold (Context constant exportedVariable)
open Node (bare core coreOf shell)

/-- The first arguments of two calls say the same, and both are templates or neither is. -/
def Node.CallsAlike (s s' : Source) (call call' : Node) : Prop :=
  Option.Rel (fun a a' => core s a = core s' a' ∧ (a.shape = .template ↔ a'.shape = .template))
    (call.callArguments?.getD []).head? (call'.callArguments?.getD []).head?

/-- What names mean goes together. -/
inductive Binding.Alike (w w' : Workplace) (R : ScopeId → ScopeId → Prop) :
    Option Binding → Option Binding → Prop
  | none : Alike w w' R none none
  | imported {i i' : Import} :
      (exportedVariable w.importer i).map (Option.map fun v => coreOf v.1 v.2) =
        (exportedVariable w'.importer i').map (Option.map fun v => coreOf v.1 v.2) →
      Alike w w' R (some (.imported i)) (some (.imported i'))
  | declared {d d' : Place} :
      coreOf w.source (d.node.child? .value) = coreOf w'.source (d'.node.child? .value) →
      Option.Rel (Node.CallsAlike w.source w'.source)
        (Accessor.call? w.source (d.node.child? .value))
        (Accessor.call? w'.source (d'.node.child? .value)) →
      R (w.scopes.scopeFor d) (w'.scopes.scopeFor d') →
      Alike w w' R (some (.declared d)) (some (.declared d'))
  | parameter {n f n' f' : Place} {position : Nat} {simple : Bool} :
      Option.Rel (fun m m' => core w.source m.2 = core w'.source m'.2 ∧
          R (w.scopes.scopeFor m.1) (w'.scopes.scopeFor m'.1))
        (Usage.mapCall? w.source f) (Usage.mapCall? w'.source f') →
      Alike w w' R (some (.parameter n f position simple)) (some (.parameter n' f' position simple))
  | other {d d' : Place} : Alike w w' R (some (.other d)) (some (.other d'))

/-- Two workplaces go together by a relation between their scopes. -/
def Accessor.Workplace.Alike (w w' : Workplace) (R : ScopeId → ScopeId → Prop) : Prop :=
  ∀ i i', R i i' → ∀ x, Binding.Alike w w' R (w.scopes.resolve i x) (w'.scopes.resolve i' x)

variable {w w' : Workplace} {R : ScopeId → ScopeId → Prop} {i i' : ScopeId}

theorem Accessor.Workplace.Alike.context (h : w.Alike w' R) (hi : R i i') :
    (w.context i).Alike (w'.context i') := by
  intro x
  have hx := h i i' hi x
  change Context.meaning ⟨w.source, w.scopes.resolve i, w.importer⟩ x =
    Context.meaning ⟨w'.source, w'.scopes.resolve i', w'.importer⟩ x
  unfold Context.meaning
  dsimp only
  generalize w.scopes.resolve i x = b at hx
  generalize w'.scopes.resolve i' x = b' at hx
  cases hx with
  | none | parameter | other => rfl
  | imported h => exact congrArg Fold.Meaning.imported h
  | declared h => exact congrArg Fold.Meaning.declared h

theorem Node.shell_of_core {s s' : Source} {a a' : Node} (h : core s a = core s' a')
    (ha : a.shape ≠ .wrapper) (ha' : a'.shape ≠ .wrapper) : shell s a = shell s' a' := by
  rw [core_of_not_wrapper ha, core_of_not_wrapper ha'] at h
  exact Option.some.inj h

namespace Namespace

/-- The namespace that a call is bound to, if there is one. -/
def known (ctx : Context) (call : Node) : Traced (Option Text) := do
  match call.callArguments?.getD [] with
  | [] => return none
  | first :: _ =>
    match ← constant ctx 0 (some first) with
    | .string s => return some s
    | _ =>
      if first.shape = .template then Fold.foldTemplate ctx.source (constant ctx 0) first
      else return none

/-- A namespace, or a placeholder in its place. -/
def ofKnown (call : Node) (label : Text) (line : Nat) : Option Text → Namespace
  | some s => .static s
  | none => .dynamic (placeholder
      (text (if (call.callArguments?.getD []).isEmpty then "no-namespace" else "dynamic")) label line)

theorem resolve_eq (ctx : Context) (label : Text) (line : Nat) (call : Node) :
    resolve ctx label line call = ofKnown call label line <$> known ctx call := by
  unfold resolve known ofKnown
  cases call.callArguments?.getD [] with
  | nil => rfl
  | cons first rest =>
    dsimp only
    rw [map_bind]
    refine bind_congr fun v => ?_
    cases v with
    | string s => rfl
    | dynamic | strings | records =>
      dsimp only
      split
      · rw [← bind_pure_comp]
        refine bind_congr fun o => ?_
        cases o <;> rfl
      · rfl

theorem static?_ofKnown (call : Node) (label : Text) (line : Nat) (o : Option Text) :
    (ofKnown call label line o).static? = o := by
  cases o <;> rfl

variable {ctx ctx' : Context} {call call' : Node}

theorem known_erased (hctx : ctx.Alike ctx') (hcall : call.CallsAlike ctx.source ctx'.source call') :
    (known ctx call).outcome = (known ctx' call').outcome := by
  unfold Node.CallsAlike at hcall
  unfold known
  generalize call.callArguments?.getD [] = args at hcall
  generalize call'.callArguments?.getD [] = args' at hcall
  rcases args with _ | ⟨a, rest⟩ <;> rcases args' with _ | ⟨a', rest'⟩ <;> cases hcall
  · rfl
  · next hargs =>
    obtain ⟨ha, ht⟩ := hargs
    have hcore : coreOf ctx.source (some a) = coreOf ctx'.source (some a') := ha
    refine Traced.bind_outcome_congr (Fold.constant_erased hctx hcore 0) fun v => ?_
    cases v with
    | string s => rfl
    | dynamic | strings | records =>
      dsimp only
      by_cases h : a.shape = .template
      · have h' := ht.1 h
        rw [if_pos h, if_pos h']
        exact Fold.foldTemplate_erased (Fold.folder_erases _) hctx (Node.kind_of_shape_template h)
          (Node.shell_of_core ha (by rw [h]; nofun) (by rw [h']; nofun))
      · rw [if_neg h, if_neg fun h' => h (ht.2 h')]

end Namespace

namespace Usage

theorem ownNamespace_erased (hw : w.Alike w' R) (hi : R i i') (x : Text) :
    (ownNamespace w i x).outcome = (ownNamespace w' i' x).outcome := by
  have hknown {w : Workplace} (d : Place) (call : Node) :
      (do return (← w.namespaceAt d call).static?) =
        Namespace.known (w.context (w.scopes.scopeFor d)) call := by
    rw [bind_pure_comp, Workplace.namespaceAt, Namespace.resolve_eq]
    simp [Functor.map_map, Namespace.static?_ofKnown]
  unfold ownNamespace
  have hx := hw i i' hi x
  generalize w.scopes.resolve i x = b at hx
  generalize w'.scopes.resolve i' x = b' at hx
  cases hx with
  | none | imported | parameter | other => rfl
  | @declared d d' _ hcall hscope =>
    dsimp only
    generalize Accessor.call? w.source (d.node.child? .value) = c at hcall
    generalize Accessor.call? w'.source (d'.node.child? .value) = c' at hcall
    cases hcall with
    | none => rfl
    | some hcall =>
      dsimp only
      rw [hknown, hknown]
      exact Namespace.known_erased (hw.context hscope) hcall

theorem mappedList_item (w : Workplace) (n f : Place) :
    mappedList w (some (.parameter n f 0 true)) =
      match mapCall? w.source f with
      | some m => constant (w.context (w.scopes.scopeFor m.1)) 0 (some m.2)
      | none => pure .dynamic := by
  rw [mappedList]
  cases mapCall? w.source f <;> rfl

theorem mappedList_erased (hw : w.Alike w' R) (hi : R i i') (x : Text) :
    (mappedList w (w.scopes.resolve i x)).outcome =
      (mappedList w' (w'.scopes.resolve i' x)).outcome := by
  have hx := hw i i' hi x
  generalize w.scopes.resolve i x = b at hx
  generalize w'.scopes.resolve i' x = b' at hx
  cases hx with
  | none | imported | declared | other => rfl
  | @parameter n f n' f' position simple hlist =>
    rcases position with _ | position
    · cases simple with
      | false => rfl
      | true =>
        rw [mappedList_item, mappedList_item]
        generalize mapCall? w.source f = m at hlist
        generalize mapCall? w'.source f' = m' at hlist
        cases hlist with
        | none => rfl
        | @some m m' h =>
          have hcore : coreOf w.source (some m.2) = coreOf w'.source (some m'.2) := h.1
          exact Fold.constant_erased (hw.context h.2) hcore 0
    · rfl

/-- A property of a plain name, by its name and the name of the property. -/
def plainMember? (s : Source) (m : Node) : Option (Text × Text) :=
  match m.child? .object, m.child? .property with
  | some o, some p =>
    if o.shape = .identifier ∧ p.kind = .propertyIdentifier then some (o.text s, p.text s) else none
  | _, _ => none

/-- The keys that a property of the items of a list stands for. -/
def memberKeys (w : Workplace) (i : ScopeId) (m : Node) : Traced (List Text) := do
  match plainMember? w.source m with
  | some (x, name) =>
    let list ← mappedList w (w.scopes.resolve i x)
    return (list.records?.getD []).filterMap fun r =>
      (Named.get? r name).filter fun v => !v.isEmpty
  | none => return []

theorem localKeys_eq (w : Workplace) (i : ScopeId) (a : Node) :
    localKeys w i a = constant (w.context i) 0 (some a) >>= fun
      | .string s => pure [s]
      | _ =>
        match a.unwrap? with
        | none => pure []
        | some m =>
          match m.shape with
          | .identifier => do
            let list ← mappedList w (w.scopes.resolve i (m.text w.source))
            return list.strings?.getD []
          | .member => memberKeys w i m
          | _ => pure [] := by
  have hmember (m : Node) : memberKeys w i m = match m.child? .object, m.child? .property with
      | some o, some p =>
        if o.shape = .identifier ∧ p.kind = .propertyIdentifier then do
          let list ← mappedList w (w.scopes.resolve i (o.text w.source))
          return (list.records?.getD []).filterMap fun r =>
            (Named.get? r (p.text w.source)).filter fun v => !v.isEmpty
        else pure []
      | _, _ => pure [] := by
    unfold memberKeys plainMember?
    cases m.child? .object with
    | none => rfl
    | some o =>
      cases m.child? .property with
      | none => rfl
      | some p =>
        by_cases h : o.shape = .identifier ∧ p.kind = .propertyIdentifier
        · simp only [if_pos h]
        · simp only [if_neg h]
  simp only [hmember]
  rfl

/-- The object of a member expression is a plain name. -/
def PlainObject (m : Node) : Prop := ∃ o, m.child? .object = some o ∧ o.shape = .identifier

/-- Member expressions that say the same are properties of the same plain name, if the objects of
both are plain or of neither is. -/
theorem plainMember?_erased {s s' : Source} {m m' : Node} (h : shell s m = shell s' m')
    (hplain : PlainObject m ↔ PlainObject m') : plainMember? s m = plainMember? s' m' := by
  have hparts := Node.bareAll_of_shell h
  have hobject := Node.map_bare_child?_eq hparts (r := .object) (by decide)
  have hproperty := Node.map_bare_child?_eq hparts (r := .property) (by decide)
  unfold PlainObject at hplain
  unfold plainMember?
  generalize m.child? .object = o at hobject hplain
  generalize m'.child? .object = o' at hobject hplain
  generalize m.child? .property = p at hproperty
  generalize m'.child? .property = p' at hproperty
  rcases o with _ | o <;> rcases o' with _ | o'
  · rfl
  · cases hobject
  · cases hobject
  rcases p with _ | p <;> rcases p' with _ | p'
  · rfl
  · cases hproperty
  · cases hproperty
  have hobject : bare s o = bare s' o' := Option.some.inj hobject
  have hproperty : bare s p = bare s' p' := Option.some.inj hproperty
  have hplain : o.shape = .identifier ↔ o'.shape = .identifier := by simpa using hplain
  have hkind : p.kind = .propertyIdentifier ↔ p'.kind = .propertyIdentifier :=
    ⟨fun h => (Node.shell_of_bare rfl h hproperty).1,
      fun h => (Node.shell_of_bare rfl h hproperty.symm).1⟩
  dsimp only
  by_cases hn : o.shape = .identifier ∧ p.kind = .propertyIdentifier
  · have hn' : o'.shape = .identifier ∧ p'.kind = .propertyIdentifier :=
      ⟨hplain.1 hn.1, hkind.1 hn.2⟩
    have htext : o.text s = o'.text s' :=
      Node.text_of_shell (Node.shell_of_core (Node.core_eq_of_bare_eq hobject)
        (by rw [hn.1]; nofun) (by rw [hn'.1]; nofun))
        (by rw [Node.kind_of_shape_identifier hn.1]; rfl)
    have hname : p.text s = p'.text s' :=
      Node.text_of_shell (Node.shell_of_bare rfl hn.2 hproperty).2 (by rw [hn.2]; rfl)
    rw [if_pos hn, if_pos hn', htext, hname]
  · rw [if_neg hn, if_neg fun hn' => hn ⟨hplain.2 hn'.1, hkind.2 hn'.2⟩]

theorem memberKeys_erased (hw : w.Alike w' R) (hi : R i i') {m m' : Node}
    (h : shell w.source m = shell w'.source m') (hplain : PlainObject m ↔ PlainObject m') :
    (memberKeys w i m).outcome = (memberKeys w' i' m').outcome := by
  unfold memberKeys
  rw [plainMember?_erased h hplain]
  cases plainMember? w'.source m' with
  | none => rfl
  | some r => exact Traced.bind_outcome_congr (mappedList_erased hw hi r.1) fun _ => rfl

/-- Under its wrappers, an argument is a property of a plain name. -/
def HasPlainObject (a : Node) : Prop :=
  ∃ m, a.unwrap? = some m ∧ m.shape = .member ∧ PlainObject m

theorem hasPlainObject_iff {a m : Node} (hm : a.unwrap? = some m) (hs : m.shape = .member) :
    HasPlainObject a ↔ PlainObject m := by
  constructor
  · rintro ⟨m', hm', -, h⟩
    cases hm.symm.trans hm'
    exact h
  · exact fun h => ⟨m, hm, hs, h⟩

theorem localKeys_erased (hw : w.Alike w' R) (hi : R i i') {a a' : Node}
    (ha : core w.source a = core w'.source a') (hplain : HasPlainObject a ↔ HasPlainObject a') :
    (localKeys w i a).outcome = (localKeys w' i' a').outcome := by
  have hcore : coreOf w.source (some a) = coreOf w'.source (some a') := ha
  rw [localKeys_eq, localKeys_eq]
  refine Traced.bind_outcome_congr (Fold.constant_erased (hw.context hi) hcore 0) fun v => ?_
  cases v with
  | string s => rfl
  | dynamic | strings | records =>
    have hunder : Option.Rel (fun m m' => shell w.source m = shell w'.source m') a.unwrap?
        a'.unwrap? := Node.unwrapOf_rel hcore
    generalize hu : a.unwrap? = o at hunder
    generalize hu' : a'.unwrap? = o' at hunder
    cases hunder with
    | none => rfl
    | @some m m' hshell =>
      have hshape : m'.shape = m.shape := congrArg Kind.shape (Node.kind_of_shell hshell).symm
      dsimp only
      rw [hshape]
      split
      · next hs =>
        rw [Node.text_of_shell hshell (by rw [Node.kind_of_shape_identifier hs]; rfl)]
        exact Traced.bind_outcome_congr (mappedList_erased hw hi _) fun _ => rfl
      · next hs =>
        rw [hasPlainObject_iff hu hs, hasPlainObject_iff hu' (hshape.trans hs)] at hplain
        exact memberKeys_erased hw hi hshell hplain
      · rfl

/-- The first arguments of two calls say the same, and if one is a property of a plain name, so is the
other. -/
def ArgumentsAlike (s s' : Source) (call call' : Node) : Prop :=
  Option.Rel (fun a a' => core s a = core s' a' ∧ (HasPlainObject a ↔ HasPlainObject a'))
    (call.callArguments?.getD []).head? (call'.callArguments?.getD []).head?

/-- What a usage looks up: a key, through a variable, in a namespace. -/
def lookedUp (u : Usage) : Text × Text × Option Text := (u.key, u.variableName, u.ns)

/-- Calls that say the same look up the same, in the same order. -/
theorem ofCall_erased (hw : w.Alike w' R) {call call' : Place}
    (hscope : R (w.scopes.scopeFor call) (w'.scopes.scopeFor call'))
    (hv : lookupVariable? w.source call.node = lookupVariable? w'.source call'.node)
    (hargs : ArgumentsAlike w.source w'.source call.node call'.node) (m : Fallback)
    (delimiter : Text) :
    (List.map lookedUp <$> ofCall w m delimiter call).outcome =
      (List.map lookedUp <$> ofCall w' m delimiter call').outcome := by
  cases hname : lookupVariable? w.source call.node with
  | none =>
    have hname' := hv.symm.trans hname
    simp only [ofCall, hname, hname']
  | some name =>
    have hname' := hv.symm.trans hname
    rw [ofCall_eq m hname, ofCall_eq m hname', map_bind, map_bind]
    refine Traced.bind_outcome_congr (ownNamespace_erased hw hscope name) fun own => ?_
    split
    · rfl
    · unfold through
      unfold ArgumentsAlike at hargs
      generalize call.node.callArguments?.getD [] = args at hargs
      generalize call'.node.callArguments?.getD [] = args' at hargs
      rcases args with _ | ⟨a, rest⟩ <;> rcases args' with _ | ⟨a', rest'⟩ <;> cases hargs
      · rfl
      · next h =>
        dsimp only
        rw [map_bind, map_bind]
        refine Traced.bind_outcome_congr (localKeys_erased hw hscope h.1 h.2) fun keys => ?_
        simp [atCall, lookedUp, Function.comp_def]

end Usage

namespace Accessor.Workplace

theorem alike_refl (w : Workplace) : w.Alike w Eq := by
  have hcall (c : Option Node) : Option.Rel (Node.CallsAlike w.source w.source) c c :=
    Pointwise.option_same fun call _ => Pointwise.option_same fun a _ => ⟨rfl, .rfl⟩
  rintro i _ rfl x
  generalize w.scopes.resolve i x = b
  match b with
  | none => exact .none
  | some (.imported _) => exact .imported rfl
  | some (.declared _) => exact .declared rfl (hcall _) rfl
  | some (.parameter _ f _ _) => exact .parameter (Pointwise.option_same fun m _ => ⟨rfl, rfl⟩)
  | some (.other _) => exact .other

/-- **Type assertions are erased.** Expressions that are the same under their wrappers fold to the
same at every depth where every name stands for what is the same under its wrappers. Calls through
the same variable, of which the first arguments are the same under their wrappers, look up the same
keys in the same order through that variable in the same namespace: in scopes of two workplaces in
which names go together, and so in one scope of one workplace. -/
theorem assertions_erased :
    (∀ (ctx ctx' : Context) (n n' : Option Node), ctx.Alike ctx' →
      coreOf ctx.source n = coreOf ctx'.source n' → ∀ depth,
        (constant ctx depth n).outcome = (constant ctx' depth n').outcome) ∧
    (∀ (w w' : Workplace) (R : ScopeId → ScopeId → Prop) (call call' : Place), w.Alike w' R →
      R (w.scopes.scopeFor call) (w'.scopes.scopeFor call') →
      Usage.lookupVariable? w.source call.node = Usage.lookupVariable? w'.source call'.node →
      Usage.ArgumentsAlike w.source w'.source call.node call'.node → ∀ m delimiter,
        (List.map Usage.lookedUp <$> Usage.ofCall w m delimiter call).outcome =
          (List.map Usage.lookedUp <$> Usage.ofCall w' m delimiter call').outcome) ∧
    ∀ (w : Workplace) (call call' : Place), w.scopes.scopeFor call = w.scopes.scopeFor call' →
      Usage.lookupVariable? w.source call.node = Usage.lookupVariable? w.source call'.node →
      Usage.ArgumentsAlike w.source w.source call.node call'.node → ∀ m delimiter,
        (List.map Usage.lookedUp <$> Usage.ofCall w m delimiter call).outcome =
          (List.map Usage.lookedUp <$> Usage.ofCall w m delimiter call').outcome := by
  refine ⟨fun _ _ _ _ hctx h depth => Fold.constant_erased hctx h depth,
    fun _ _ _ _ _ hw hscope hv hargs m delimiter =>
      Usage.ofCall_erased hw hscope hv hargs m delimiter,
    fun w _ _ hscope hv hargs m delimiter =>
      Usage.ofCall_erased w.alike_refl hscope hv hargs m delimiter⟩

end Accessor.Workplace

/-- A program `const k=…;t(…)`, by what `k` is declared with and what is looked up. -/
structure Keyed where
  code : Text
  value : Node
  argument : Node

namespace Keyed

variable (k : Keyed)

def declarator : Node :=
  .mk .none .variableDeclarator ⟨6, k.value.span.stop⟩ [.mk .name .identifier ⟨6, 7⟩ [], k.value]

def declaration : Node :=
  .mk .none .lexicalDeclaration ⟨0, k.value.span.stop + 1⟩ [k.declarator]

def call : Node :=
  let start := k.value.span.stop + 1
  .mk .none .callExpression ⟨start, k.argument.span.stop + 1⟩
    [.mk .function .identifier ⟨start, start + 1⟩ [],
      .mk .arguments .arguments ⟨start + 1, k.argument.span.stop + 1⟩ [k.argument]]

def statement : Node := .mk .none .otherStatement k.call.span [k.call]

def program : Program where
  source := ⟨(Utf8.encode k.code).toArray⟩
  root := .mk .none .program ⟨0, k.call.span.stop⟩ [k.declaration, k.statement]

/-- The place of the declarator of `k`. -/
def declared : Place := ⟨k.declarator, [k.declaration, k.program.root]⟩

/-- The place of the lookup. -/
def lookup : Place := ⟨k.call, [k.statement, k.program.root]⟩

/-- The workplace of the program, with its one scope. -/
def workplace : Workplace where
  program := k.program
  scopes := ⟨⟨#[⟨none, true, [(text "k", .declared k.declared)]⟩]⟩, [(k.program.root.key, 0)],
    #[.root k.program.root]⟩
  importer := none
  label := []

theorem resolve_workplace (x : Text) : k.workplace.scopes.resolve 0 x =
    if x = text "k" then some (.declared k.declared) else none := by
  let scope : Scope Binding := ⟨none, true, Named.set (text "k") (.declared k.declared) []⟩
  have hchain : k.workplace.scopes.scopes.chain 0 = [(0, scope)] := rfl
  rw [ScopeTree.resolve, Scopes.resolve, hchain, List.findSome?_cons, Scope.get?, Named.get?_set]
  by_cases h : x = text "k"
  · rw [if_pos h, if_pos h]
  · rw [if_neg h, if_neg h]
    rfl

/-- The program `const k='a';t(k)`. -/
def plain : Keyed where
  code := text "const k='a';t(k)"
  value := .mk .value .string ⟨8, 11⟩ [.mk .none .stringFragment ⟨9, 10⟩ []]
  argument := .mk .none .identifier ⟨14, 15⟩ []

/-- The program `const k=('a');t(k!)`. -/
def wrapped : Keyed where
  code := text "const k=('a');t(k!)"
  value := .mk .value .parenthesizedExpression ⟨8, 13⟩
    [.mk .none .string ⟨9, 12⟩ [.mk .none .stringFragment ⟨10, 11⟩ []]]
  argument := .mk .none .nonNullExpression ⟨16, 18⟩ [.mk .none .identifier ⟨16, 17⟩ []]

theorem core_value : core plain.workplace.source plain.value =
    core wrapped.workplace.source wrapped.value := by
  have hplain (s : Source) : core s plain.value =
      some (.mk .none .string [s.slice ⟨8, 11⟩] [.mk .none .stringFragment [] []]) := rfl
  have hwrapped (s : Source) : core s wrapped.value =
      some (.mk .none .string [s.slice ⟨9, 12⟩] [.mk .none .stringFragment [] []]) := rfl
  have htext : plain.workplace.source.slice ⟨8, 11⟩ = wrapped.workplace.source.slice ⟨9, 12⟩ := by
    decide +kernel
  rw [hplain, hwrapped, htext]

theorem core_argument : core plain.workplace.source plain.argument =
    core wrapped.workplace.source wrapped.argument := by
  have hplain (s : Source) : core s plain.argument =
      some (.mk .none .identifier [s.slice ⟨14, 15⟩] []) := rfl
  have hwrapped (s : Source) : core s wrapped.argument =
      some (.mk .none .identifier [s.slice ⟨16, 17⟩] []) := rfl
  have htext : plain.workplace.source.slice ⟨14, 15⟩ = wrapped.workplace.source.slice ⟨16, 17⟩ := by
    decide +kernel
  rw [hplain, hwrapped, htext]

theorem alike_wrapped : plain.workplace.Alike wrapped.workplace fun i i' => i = 0 ∧ i' = 0 := by
  rintro _ _ ⟨rfl, rfl⟩ x
  rw [resolve_workplace, resolve_workplace]
  split
  · exact .declared core_value .none ⟨rfl, rfl⟩
  · exact .none

/-- Both programs look up a plain name, which is no property of one. -/
theorem argumentsAlike_wrapped : Usage.ArgumentsAlike plain.workplace.source
    wrapped.workplace.source plain.call wrapped.call := by
  have hplain {a n : Node} (h : a.unwrap? = some n) (hn : n.shape = .identifier) :
      ¬ Usage.HasPlainObject a := by
    rintro ⟨m, hm, hs, -⟩
    rw [Option.some.inj (hm.symm.trans h), hn] at hs
    cases hs
  exact .some ⟨core_argument, iff_of_false (hplain rfl rfl) (hplain rfl rfl)⟩

end Keyed

/-- The parentheses and the assertion in `const k=('a');t(k!)` change nothing. -/
theorem Accessor.Workplace.assertions_erased_wrapped :
    let keys (k : Keyed) := (List.map Usage.lookedUp <$> Usage.ofCall k.workplace
      [(text "t", some (text "n"))] Usage.defaultDelimiter k.lookup).outcome
    let folded (k : Keyed) := (constant (k.workplace.context 0) 0 (some k.argument)).outcome
    folded .plain = folded .wrapped ∧ keys .plain = keys .wrapped ∧
      (keys .wrapped).toOption = some [(text "n.a", text "t", some (text "n"))] := by
  intro keys folded
  obtain ⟨hfold, hkeys, -⟩ := assertions_erased
  have hvariable : Usage.lookupVariable? Keyed.plain.workplace.source Keyed.plain.call =
      Usage.lookupVariable? Keyed.wrapped.workplace.source Keyed.wrapped.call := by decide +kernel
  have hsame : keys .plain = keys .wrapped :=
    hkeys _ _ _ Keyed.plain.lookup Keyed.wrapped.lookup Keyed.alike_wrapped ⟨rfl, rfl⟩ hvariable
      Keyed.argumentsAlike_wrapped _ _
  refine ⟨hfold _ _ (some Keyed.plain.argument) (some Keyed.wrapped.argument)
    (Keyed.alike_wrapped.context ⟨rfl, rfl⟩) Keyed.core_argument 0, hsame, ?_⟩
  decide +kernel

/-- The workplaces are those of the programs. -/
example : (Accessor.Workplace.ofProgram Keyed.wrapped.program none []).outcome =
    .ok Keyed.wrapped.workplace := rfl


end KeyTrace
