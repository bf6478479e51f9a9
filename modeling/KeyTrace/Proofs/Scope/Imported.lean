/-
Where the imports of a program come from: a name means a variable of another module
only if a specifier at the top of the program binds it.
-/
import KeyTrace.Proofs.Literal.Cook
import KeyTrace.Proofs.Pointwise
import KeyTrace.Proofs.Scope.Declared

namespace KeyTrace

/-- A specifier has a name, which may be written as a string. -/
def Node.Specifies (n : Node) (source : Source) (name : Text) : Prop :=
  ∃ c, n.child? .name = some c ∧
    ((c.kind = .string ∧ Literal.stringValue source c = .ok name) ∨
      (c.kind ≠ .string ∧ c.text source = name))

namespace Program

/-- A statement at the top of a program imports a variable of a module by its name: neither the
statement nor the specifier is of types alone, and the name is not that of a default import. -/
structure NamedImport (p : Program) (module : Text) (statement specifier : Node) : Prop where
  top : statement ∈ p.root.children
  notTypeOnly : statement.kind = .importStatement false
  source : ∃ s, statement.child? .source = some s ∧ Literal.stringValue p.source s = .ok module
  braces : ∃ clause ∈ statement.children, clause.kind = .importClause ∧
    ∃ names ∈ clause.children, names.kind = .namedImports ∧ specifier ∈ names.children
  isSpecifier : specifier.kind = .importSpecifier false
  name : ∃ name, specifier.Specifies p.source name ∧ name ≠ Import.defaultName

/-- The program imports a variable of the module by its name. -/
def ImportsByName (p : Program) (module : Text) : Prop :=
  ∃ statement specifier, p.NamedImport module statement specifier

end Program

namespace Import

open Literal (InvalidEscape bind_ok_iff mapM_ok_iff)

variable {p : Program} {source : Source} {module x : Text} {q : Place} {i : Import}

theorem exists_of_mem_mapM {α β : Type} {f : α → Except InvalidEscape β} {b : β} {l : List α}
    {bs : List β} (h : l.mapM f = .ok bs) (hb : b ∈ bs) : ∃ a ∈ l, f a = .ok b :=
  Pointwise.exists_of_mem_right (mapM_ok_iff.1 h) hb

theorem ofSpecifier?_some (h : ofSpecifier? source module q = .ok (some (x, i))) :
    i.module = module ∧ q.node.kind = .importSpecifier false ∧
      ∃ name, q.node.Specifies source name ∧ i.name = some name := by
  unfold ofSpecifier? at h
  split at h
  · cases h
  · next hk =>
    split at h
    · cases h
    · next c hc =>
      by_cases hs : c.kind = .string
      · simp only [if_pos hs] at h
        obtain ⟨name, hname, h⟩ := bind_ok_iff.1 h
        cases h
        exact ⟨rfl, not_not.1 hk, name, ⟨c, hc, .inl ⟨hs, hname⟩⟩, rfl⟩
      · simp only [if_neg hs] at h
        cases h
        exact ⟨rfl, not_not.1 hk, _, ⟨c, hc, .inr ⟨hs, rfl⟩⟩, rfl⟩

theorem named_of_mem_ofClausePart {l : List (Text × Import)}
    (h : ofClausePart source module q = .ok l) (hi : (x, i) ∈ l) (hn : i.isNamed = true) :
    q.node.kind = .namedImports ∧
      ∃ s ∈ q.children, ofSpecifier? source module s = .ok (some (x, i)) := by
  unfold ofClausePart at h
  split at h
  · cases h
    obtain rfl := (Prod.ext_iff.1 (List.mem_singleton.1 hi)).2
    simp [isNamed] at hn
  · cases h
    obtain ⟨c, -, hc⟩ := List.mem_map.1 hi
    obtain rfl := (Prod.ext_iff.1 hc).2
    simp [isNamed] at hn
  · next hk =>
    obtain ⟨os, hos, h⟩ := bind_ok_iff.1 h
    cases h
    obtain ⟨o, ho, rfl⟩ := List.mem_filterMap.1 hi
    exact ⟨hk, exists_of_mem_mapM hos ho⟩
  · cases h
    cases hi

theorem namedImport_of_mem_ofStatement {l : List (Text × Import)}
    (h : ofStatement p.source q = .ok l) (hq : q.node ∈ p.root.children) (hi : (x, i) ∈ l)
    (hn : i.isNamed = true) : ∃ specifier, p.NamedImport i.module q.node specifier := by
  unfold ofStatement at h
  split at h
  · cases h
    cases hi
  · next hk =>
    split at h
    · cases h
      cases hi
    · next s hs =>
      obtain ⟨module, hm, h⟩ := bind_ok_iff.1 h
      obtain ⟨ls, hls, h⟩ := bind_ok_iff.1 h
      cases h
      obtain ⟨l, hl, hi⟩ := List.mem_flatten.1 hi
      obtain ⟨part, hpart, hl⟩ := exists_of_mem_mapM hls hl
      obtain ⟨clause, hclause, hpart⟩ := List.mem_flatMap.1 hpart
      obtain ⟨hclause, hkind⟩ := List.mem_filter.1 hclause
      obtain ⟨c, hc, rfl⟩ := List.mem_map.1 hclause
      obtain ⟨names, hnames, rfl⟩ := List.mem_map.1 hpart
      obtain ⟨hbraces, spec, hspec, hsome⟩ := named_of_mem_ofClausePart hl hi hn
      obtain ⟨n, hn', rfl⟩ := List.mem_map.1 hspec
      obtain ⟨rfl, hspecifier, name, hname, hi⟩ := ofSpecifier?_some hsome
      refine ⟨n, ⟨hq, not_not.1 hk, ⟨s, hs, hm⟩, ⟨c, hc, of_decide_eq_true hkind, names, hnames, hbraces,
        hn'⟩, hspecifier, name, hname, ?_⟩⟩
      simpa [isNamed, hi] using hn

/-- What a program imports by a name, it imports between the braces of a statement at its top. -/
theorem importsByName_of_mem {imports : List (Text × Import)} (h : ofProgram p = .ok imports)
    (hi : (x, i) ∈ imports) (hn : i.isNamed = true) : p.ImportsByName i.module := by
  obtain ⟨ls, hls, h⟩ := bind_ok_iff.1 h
  cases h
  obtain ⟨l, hl, hi⟩ := List.mem_flatten.1 hi
  obtain ⟨q, hq, hl⟩ := exists_of_mem_mapM hls hl
  obtain ⟨statement, hs, rfl⟩ := List.mem_map.1 hq
  exact ⟨statement, namedImport_of_mem_ofStatement hl hs hi hn⟩

end Import

namespace Declaration

variable {source : Source} {p : Place} {decl : Declaration} {i : Import}

theorem ne_imported_of_mem_atPlace (h : decl ∈ atPlace source p) : decl.binding ≠ .imported i := by
  intro hi
  have hpattern : ∀ {r pattern e}, decl ∉ ofPattern source r pattern (.other e) := by
    intro r pattern e hp
    rw [binding_of_mem_ofPattern hp] at hi
    cases hi
  have hparameters : ∀ {f}, decl ∉ ofParameters source f := by
    intro f hf
    obtain ⟨q, -, hq⟩ := List.mem_flatMap.1 hf
    obtain ⟨n, -, rfl⟩ := List.mem_map.1 hq
    cases hi
  have hvariables : ∀ {r}, decl ∉ p.children.flatMap (ofVariable source r) := by
    intro r hv
    obtain ⟨d, -, hd⟩ := List.mem_flatMap.1 hv
    unfold ofVariable at hd
    split at hd
    · cases hd
    · split at hd
      · cases hd
      · split at hd
        · rw [List.mem_singleton.1 hd] at hi
          cases hi
        · exact hpattern hd
  unfold atPlace at h
  split at h
  · exact hvariables h
  · exact hvariables h
  all_goals simp [hpattern, hparameters] at h

end Declaration

namespace ScopeTree

/-- A variable of another module that a name means is one that the program imports by a name. -/
theorem imported_of_resolve {p : Program} {t : ScopeTree} (ht : ofProgram p = .ok t)
    (hroot : p.root.kind = .program) {s : ScopeId} {x : Text} {i : Import}
    (hb : t.resolve s x = some (.imported i)) (hn : i.isNamed = true) :
    p.ImportsByName i.module := by
  cases hi : Import.ofProgram p with
  | error e =>
    rw [ofProgram, hi] at ht
    cases ht
  | ok imports =>
    obtain ⟨t', ht', h⟩ := ofProgram_covers hi hroot
    rw [ht] at ht'
    cases ht'
    obtain ⟨decl, hdecl, -, hd⟩ := h.exists_declaration hb
    rcases List.mem_append.1 hdecl with hdecl | hdecl
    · obtain ⟨m, hm, rfl⟩ := List.mem_map.1 hdecl
      cases hd
      exact Import.importsByName_of_mem hi hm hn
    · obtain ⟨q, -, hdecl⟩ := List.mem_flatMap.1 hdecl
      exact absurd hd (Declaration.ne_imported_of_mem_atPlace hdecl)

end ScopeTree
end KeyTrace
