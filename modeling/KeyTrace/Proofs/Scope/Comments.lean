/-
Scopes without comments.

The scopes of a tree without comments are those of the tree: the same numbers, the
same owners, the same names in each, bound to the same places in the tree without
comments. Each step of the construction does the same with and without comments.
-/
import KeyTrace.Proofs.Syntax.Comments
import KeyTrace.Scope.Tree

namespace KeyTrace

namespace Named

variable {β γ : Type} (f : β → γ)

/-- The collection with every value changed. -/
def mapValues (m : Named β) : Named γ := m.map fun p => (p.1, f p.2)

theorem get?_mapValues (m : Named β) (name : Text) :
    get? (mapValues f m) name = (get? m name).map f := by
  induction m with
  | nil => rfl
  | cons p m ih =>
    rw [mapValues, List.map_cons, get?, get?, List.lookup_cons, List.lookup_cons]
    split
    · rfl
    · exact ih

theorem mapValues_set (m : Named β) (name : Text) (b : β) :
    mapValues f (set name b m) = set name (f b) (mapValues f m) := by
  induction m with
  | nil => rfl
  | cons p m ih =>
    obtain ⟨n, b'⟩ := p
    change _ = set name (f b) ((n, f b') :: mapValues f m)
    rw [set, set]
    split
    · rfl
    · rw [← ih]
      rfl

end Named

/-- The scope with everything it binds changed. -/
def Scope.map {β γ : Type} (f : β → γ) (s : Scope β) : Scope γ :=
  ⟨s.parent, s.isFunction, s.bindings.mapValues f⟩

namespace Scopes

variable {β γ : Type} (f : β → γ) (s : Scopes β)

/-- The scopes with everything they bind changed. -/
def map : Scopes γ := ⟨s.entries.map (Scope.map f)⟩

@[simp] theorem size_map : (s.map f).size = s.size := Array.size_map

theorem get?_map (i : ScopeId) : (s.map f).get? i = (s.get? i).map (Scope.map f) :=
  Array.getElem?_map

theorem map_push (parent : Option ScopeId) (isFunction : Bool) :
    (s.push parent isFunction).map f = (s.map f).push parent isFunction := by
  simp only [push, map, Array.map_push]
  rfl

theorem map_declare (i : ScopeId) (name : Text) (b : β) :
    (s.declare i name b).map f = (s.map f).declare i name (f b) := by
  have hdeclare (e : Scope β) : (e.declare name b).map f = (e.map f).declare name (f b) := by
    rw [Scope.map, Scope.declare, Scope.declare, Named.mapValues_set]
    rfl
  simp only [declare, map, Scopes.mk.injEq]
  refine Array.ext_getElem? fun j => ?_
  rw [Array.getElem?_map, Array.getElem?_modify, Array.getElem?_modify, Array.getElem?_map]
  split
  · rw [Option.map_map, Option.map_map]
    exact congrArg (fun g => Option.map g s.entries[j]?) (funext hdeclare)
  · rfl

theorem chainFrom_map (n : Nat) (i : ScopeId) :
    (s.map f).chainFrom n i = (s.chainFrom n i).map fun e => (e.1, e.2.map f) := by
  induction n generalizing i with
  | zero => rfl
  | succ n ih =>
    rw [chainFrom, chainFrom, get?_map]
    cases s.get? i with
    | none => rfl
    | some e =>
      rw [Option.map_some, List.map_cons]
      dsimp only
      congr 1
      have hp : (e.map f).parent = e.parent := rfl
      rw [hp]
      cases e.parent with
      | none => rfl
      | some p =>
        dsimp only
        split
        · exact ih p
        · rfl

theorem resolve_map (i : ScopeId) (name : Text) :
    (s.map f).resolve i name = (s.resolve i name).map f := by
  rw [resolve, resolve, chain, chain, chainFrom_map, List.findSome?_map, List.map_findSome?]
  congr 1
  funext e
  exact Named.get?_mapValues f e.2.bindings name

theorem functionScope_map (i : ScopeId) : (s.map f).functionScope i = s.functionScope i := by
  rw [functionScope, functionScope, chain, chain, chainFrom_map, List.find?_map, Option.map_map]
  rfl

end Scopes

/-- The program without comments. -/
def Program.strip (p : Program) : Program := ⟨p.source, p.root.strip⟩

namespace Import

open Literal (InvalidEscape)

variable {source : Source} {module : Text}

/-- The import as it stands in the program without comments. -/
def strip (i : Import) : Import := { i with specifier := i.specifier.strip }

/-- Imported names as they stand in the program without comments. -/
def stripNamed (x : Text × Import) : Text × Import := (x.1, x.2.strip)

theorem mapM_map {α α' β β' : Type} {f : α → Except InvalidEscape β}
    {f' : α' → Except InvalidEscape β'} {g : α → α'} {h : β → β'}
    (hf : ∀ a, f' (g a) = (f a).map h) : ∀ l : List α,
    (l.map g).mapM f' = (l.mapM f).map (List.map h)
  | [] => rfl
  | a :: l => by
    rw [List.map_cons, List.mapM_cons, List.mapM_cons, hf, mapM_map hf l]
    cases f a with
    | error e => rfl
    | ok b =>
      cases l.mapM f with
      | error e => rfl
      | ok bs => rfl

theorem flatten_map {β β' : Type} {h : β → β'} (x : Except InvalidEscape (List (List β))) :
    (x.map (List.map (List.map h)) >>= fun ls => pure ls.flatten) =
      (x >>= fun ls => pure ls.flatten).map (List.map h) := by
  cases x with
  | error e => rfl
  | ok ls => exact congrArg Except.ok List.map_flatten.symm

theorem ofSpecifier?_strip (q : Place) :
    ofSpecifier? source module q.strip = (ofSpecifier? source module q).map (Option.map stripNamed) := by
  rw [ofSpecifier?, ofSpecifier?, Place.node_strip, Node.kind_strip,
    Node.child?_strip _ (by decide), Node.child?_strip _ (by decide)]
  split
  · rfl
  · cases q.node.child? .name with
    | none => rfl
    | some n =>
      simp only [Option.map_some, Node.kind_strip, Literal.stringValue, Node.text_strip]
      cases q.node.child? .alias with
      | none =>
        split
        · cases Literal.cook ((n.text source).drop 1).dropLast <;> rfl
        · rfl
      | some a =>
        simp only [Option.map_some, Node.text_strip]
        split
        · cases Literal.cook ((n.text source).drop 1).dropLast <;> rfl
        · rfl

theorem ofClausePart_strip (q : Place) :
    ofClausePart source module q.strip = (ofClausePart source module q).map (List.map stripNamed) := by
  rw [ofClausePart, ofClausePart, Place.node_strip, Node.kind_strip, Place.children_strip]
  split
  · rw [Node.text_strip]
    rfl
  · refine congrArg Except.ok ?_
    rw [List.filter_map, List.map_map, List.map_map]
    simp [Function.comp_def, stripNamed, strip]
  · rw [mapM_map ofSpecifier?_strip]
    cases q.children.mapM (ofSpecifier? source module) with
    | error e => rfl
    | ok l =>
      refine congrArg Except.ok ?_
      rw [List.filterMap_map, List.map_filterMap]
      rfl
  · rfl

theorem ofStatement_strip (q : Place) :
    ofStatement source q.strip = (ofStatement source q).map (List.map stripNamed) := by
  rw [ofStatement, ofStatement, Place.node_strip, Node.kind_strip, Node.child?_strip _ (by decide),
    Place.children_strip]
  split
  · rfl
  · cases q.node.child? .source with
    | none => rfl
    | some s =>
      have hclauses : ((q.children.map Place.strip).filter (·.node.kind = .importClause)).flatMap
          Place.children =
          ((q.children.filter (·.node.kind = .importClause)).flatMap Place.children).map
            Place.strip := by
        rw [List.filter_map, List.flatMap_map, List.map_flatMap]
        simp [Function.comp_def]
      simp only [Option.map_some, Literal.stringValue, Node.text_strip, hclauses]
      cases Literal.cook ((s.text source).drop 1).dropLast with
      | error e => rfl
      | ok module =>
        change (List.mapM (ofClausePart source module) _ >>= _) = Except.map _ (_ >>= _)
        rw [mapM_map ofClausePart_strip]
        exact flatten_map _

/-- A program without comments has the same imports. -/
theorem ofProgram_strip (p : Program) :
    ofProgram p.strip = (ofProgram p).map (List.map stripNamed) := by
  change ((Place.root p.root).strip.children.mapM (ofStatement p.source) >>= _) = _
  rw [Place.children_strip, mapM_map ofStatement_strip]
  exact flatten_map _

end Import

/-- What a name refers to in the program without comments. -/
def Binding.strip : Binding → Binding
  | imported i => imported i.strip
  | declared d => declared d.strip
  | parameter n f position simple => parameter n.strip f.strip position simple
  | other d => other d.strip

namespace ScopeTree

/-- The scopes as they are in the program without comments. -/
def strip (t : ScopeTree) : ScopeTree :=
  ⟨t.scopes.map Binding.strip, t.owners, t.places.map Place.strip⟩

variable (source : Source) (t : ScopeTree) (i : ScopeId)

theorem resolve_strip (x : Text) : t.strip.resolve i x = (t.resolve i x).map Binding.strip :=
  Scopes.resolve_map ..

theorem size_strip : t.strip.scopes.size = t.scopes.size := Scopes.size_map ..

theorem functionScope_strip : t.strip.scopes.functionScope i = t.scopes.functionScope i :=
  Scopes.functionScope_map ..

theorem scopeOfChain_strip (l : List Node) :
    t.strip.scopeOfChain (l.map Node.strip) = t.scopeOfChain l := by
  induction l with
  | nil => rfl
  | cons n l ih =>
    rw [List.map_cons, scopeOfChain, scopeOfChain, Node.key_strip, ih]
    rfl

/-- A place lies in the same scope without comments. -/
theorem scopeFor_strip (q : Place) : t.strip.scopeFor q.strip = t.scopeFor q :=
  scopeOfChain_strip t q.chain

theorem strip_declare (x : Text) (b : Binding) :
    (t.declare i x b).strip = t.strip.declare i x b.strip := by
  rw [strip, declare, declare, strip, Scopes.map_declare]

theorem strip_openScope (q : Place) (parent : Option ScopeId) (isFunction : Bool) :
    (t.openScope q parent isFunction).strip = t.strip.openScope q.strip parent isFunction := by
  simp only [strip, openScope, Scopes.map_push, Array.map_push, Place.node_strip, Node.key_strip,
    Scopes.size_map]

theorem strip_shareScope (n : Node) : (t.shareScope n i).strip = t.strip.shareScope n.strip i := by
  rw [strip, shareScope, shareScope, Node.key_strip, strip]

/-- What is done for each of some things may be done for each in the tree without comments. -/
theorem strip_foldl {α α' : Type} {g : α → α'} {f : ScopeTree → α → ScopeTree}
    {f' : ScopeTree → α' → ScopeTree} (hf : ∀ t a, (f t a).strip = f' t.strip (g a)) (l : List α) :
    (l.foldl f t).strip = (l.map g).foldl f' t.strip := by
  induction l generalizing t with
  | nil => rfl
  | cons a l ih => rw [List.foldl_cons, ih, hf, List.map_cons, List.foldl_cons]

theorem strip_declarePattern (pattern : Option Place) (d : Place) :
    (t.declarePattern source i pattern d).strip =
      t.strip.declarePattern source i (pattern.map Place.strip) d.strip := by
  cases pattern with
  | none => rfl
  | some q =>
    rw [Option.map_some, declarePattern, declarePattern, Place.patternNames_strip]
    refine strip_foldl t (fun t n => ?_) _
    rw [strip_declare, Place.node_strip, Node.text_strip]
    rfl

theorem strip_declareVariable (d : Place) :
    (declareVariable source i t d).strip = declareVariable source i t.strip d.strip := by
  rw [declareVariable, declareVariable, Place.node_strip, Node.kind_strip,
    Place.child?_strip _ (by decide)]
  split
  · rfl
  · cases d.child? .name with
    | none => rfl
    | some n =>
      rw [Option.map_some]
      dsimp only
      rw [Place.node_strip, Node.kind_strip, Node.text_strip]
      split
      · exact strip_declare ..
      · exact strip_declarePattern ..

theorem strip_declareParameter (f : Place) (q : Place × Nat) :
    (declareParameter source i f t q).strip =
      declareParameter source i f.strip t.strip (q.1.strip, q.2) := by
  rw [declareParameter, declareParameter, Place.patternNames_strip, List.length_map,
    Place.peel_strip, Place.node_strip, Node.kind_strip]
  refine strip_foldl t (fun t n => ?_) _
  rw [strip_declare, Place.node_strip, Node.text_strip]
  rfl

theorem parametersOf_strip (f : Place) : parametersOf f.strip = (parametersOf f).map Place.strip := by
  rw [parametersOf, parametersOf, Place.child?_strip _ (by decide), Place.child?_strip _ (by decide)]
  cases f.child? .parameter with
  | some q => rfl
  | none =>
    cases f.child? .parameters with
    | none => rfl
    | some q => exact Place.children_strip q

theorem strip_enterFunction (f : Place) :
    (t.enterFunction source i f).strip = t.strip.enterFunction source i f.strip := by
  have hparameters (t : ScopeTree) (own : ScopeId) :
      ((parametersOf f).zipIdx.foldl (declareParameter source own f) t).strip =
        (parametersOf f.strip).zipIdx.foldl (declareParameter source own f.strip) t.strip := by
    rw [parametersOf_strip, List.zipIdx_map]
    exact strip_foldl t (fun t q => strip_declareParameter source t own f q) _
  have hname (b : Bool) (t : ScopeTree) (j : ScopeId) :
      (if b then t.declarePattern source j (f.child? .name) f else t).strip =
        if b then t.strip.declarePattern source j (f.strip.child? .name) f.strip else t.strip := by
    cases b with
    | false => rfl
    | true =>
      rw [if_pos rfl, if_pos rfl, strip_declarePattern, Place.child?_strip _ (by decide)]
  unfold enterFunction
  dsimp only
  rw [hparameters, hname, strip_openScope, hname, ← size_strip, hname, Place.node_strip,
    Node.kind_strip]

theorem strip_enterBlock (b : Place) :
    (t.enterBlock source i b).strip = t.strip.enterBlock source i b.strip := by
  have hpattern (t : ScopeTree) (j : ScopeId) {r : Role} (hr : r ≠ .none) :
      (t.declarePattern source j (b.child? r) b).strip =
        t.strip.declarePattern source j (b.strip.child? r) b.strip := by
    rw [strip_declarePattern, Place.child?_strip _ hr]
  have hopen := strip_openScope t b (some i) false
  unfold enterBlock
  simp only [Place.node_strip, Node.kind_strip, size_strip, ← hopen, functionScope_strip]
  split
  · exact hpattern _ _ (by decide)
  · exact hpattern _ _ (by decide)
  · rfl

theorem strip_enterDeclaration (d : Place) :
    (t.enterDeclaration source i d).strip = t.strip.enterDeclaration source i d.strip := by
  have hvariables (j : ScopeId) : (d.children.foldl (declareVariable source j) t).strip =
      d.strip.children.foldl (declareVariable source j) t.strip := by
    rw [Place.children_strip]
    exact strip_foldl t (fun t e => strip_declareVariable source t j e) _
  unfold enterDeclaration
  rw [Place.node_strip, Node.kind_strip]
  split
  · exact hvariables i
  · rw [hvariables, functionScope_strip]
  · rw [strip_declarePattern, Place.child?_strip _ (by decide)]
  · rfl

theorem bodyBlock?_strip (f : Node) : bodyBlock? f.strip = (bodyBlock? f).map Node.strip := by
  rw [bodyBlock?, bodyBlock?, Node.child?_strip _ (by decide), Option.filter_map]
  simp [Function.comp_def]

section Visits

open Node (stripAll)

omit t i

mutual

/-- Visiting a tree without comments makes the same scopes. -/
theorem strip_visit (above : List Node) (i : ScopeId) (t : ScopeTree) : ∀ n : Node,
    (visit source above i t n).strip = visit source (above.map Node.strip) i t.strip n.strip
  | .mk r k s cs => by
    let n : Node := .mk r k s cs
    have hn : n.strip = .mk r k s (stripAll cs) := rfl
    have habove : n.strip :: above.map Node.strip = (n :: above).map Node.strip := rfl
    have hplace : Place.mk n.strip (above.map Node.strip) = Place.strip ⟨n, above⟩ := rfl
    rw [hn]
    simp only [visit, ← hn, habove, hplace, bodyBlock?_strip]
    split
    · rw [← strip_enterFunction, size_strip]
      cases bodyBlock? n with
      | none => exact strip_visitAll (n :: above) _ _ cs
      | some b =>
        simp only [Option.map_some, Node.key_strip, ← strip_shareScope]
        rw [strip_visitBody, strip_visitOthers]
    · split
      · rw [← strip_enterBlock, size_strip]
        exact strip_visitAll (n :: above) _ _ cs
      · rw [← strip_enterDeclaration]
        exact strip_visitAll (n :: above) _ _ cs
termination_by structural n => n

theorem strip_visitAll (above : List Node) (i : ScopeId) (t : ScopeTree) : ∀ l : List Node,
    (visitAll source above i t l).strip =
      visitAll source (above.map Node.strip) i t.strip (stripAll l)
  | [] => rfl
  | c :: l => by
    rw [visitAll, stripAll]
    by_cases hp : c.isPassed = true
    · rw [if_pos hp, if_pos (Node.isComment_of_isPassed hp), strip_visitAll above i t l]
    · rw [if_neg hp, visitAll, Node.isComment_strip]
      split
      · exact strip_visitAll above i t l
      · rw [strip_visitAll above i _ l, strip_visit above i t c]
termination_by structural l => l

theorem strip_visitOthers (above : List Node) (i : ScopeId) (body : Node.Key) (t : ScopeTree) :
    ∀ l : List Node, (visitOthers source above i body t l).strip =
      visitOthers source (above.map Node.strip) i body t.strip (stripAll l)
  | [] => rfl
  | c :: l => by
    rw [visitOthers, stripAll]
    by_cases hp : c.isPassed = true
    · rw [if_pos hp, if_pos (by simp [Node.isComment_of_isPassed hp]),
        strip_visitOthers above i body t l]
    · rw [if_neg hp, visitOthers, Node.isComment_strip, Node.key_strip]
      split
      · exact strip_visitOthers above i body t l
      · rw [strip_visitOthers above i body _ l, strip_visit above i t c]
termination_by structural l => l

theorem strip_visitBody (above : List Node) (i : ScopeId) (body : Node.Key) (t : ScopeTree) :
    ∀ l : List Node, (visitBody source above i body t l).strip =
      visitBody source (above.map Node.strip) i body t.strip (stripAll l)
  | [] => rfl
  | .mk r k s cs :: l => by
    rw [visitBody, stripAll]
    by_cases hp : (Node.mk r k s cs).isPassed = true
    · have hr : r = .none := Node.role_of_isPassed hp
      rw [if_pos hp, if_neg (by simp [hr]), strip_visitBody above i body t l]
    · rw [if_neg hp, Node.strip, visitBody]
      have hkey : (Node.mk r k s (stripAll cs)).key = (Node.mk r k s cs).key := rfl
      rw [hkey]
      split
      · exact strip_visitAll (.mk r k s cs :: above) i t cs
      · exact strip_visitBody above i body t l
termination_by structural l => l

end

end Visits

/-- The scopes of a program without comments are those of the program. -/
theorem ofProgram_strip (p : Program) : ofProgram p.strip = (ofProgram p).map strip := by
  unfold ofProgram
  rw [Import.ofProgram_strip]
  cases Import.ofProgram p with
  | error e => rfl
  | ok imports =>
    refine congrArg Except.ok ?_
    have himports (t : ScopeTree) :
        (imports.foldl (fun t i => t.declare programScope i.1 (.imported i.2)) t).strip =
          (imports.map Import.stripNamed).foldl
            (fun t i => t.declare programScope i.1 (.imported i.2)) t.strip :=
      strip_foldl t (fun t x => strip_declare t programScope x.1 (.imported x.2)) imports
    have hroot : (openScope ⟨.empty, [], #[]⟩ (.root p.root) none false).strip =
        openScope ⟨.empty, [], #[]⟩ (.root p.root.strip) none false := by
      have hempty : strip ⟨.empty, [], #[]⟩ = ⟨.empty, [], #[]⟩ := by
        simp [strip, Scopes.map, Scopes.empty]
      rw [strip_openScope, hempty]
      rfl
    rw [strip_visitAll, himports, hroot, Program.strip, Node.allChildren_strip]
    rfl

end ScopeTree

end KeyTrace
