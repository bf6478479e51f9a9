/-
What a variable folds to where it is used.

The initializer of a variable is folded with the names as they are at the use,
not as they are at the declaration. Both come to the same as long as nothing
around the use shadows a name that folding the initializer looks up.
-/
import KeyTrace.Proofs.Fold.Reach
import KeyTrace.Proofs.Scope.Resolution
import KeyTrace.Proofs.Syntax.Wrappers

namespace KeyTrace.Fold

theorem budget_of_le {depth : Int} (h : depth ≤ maxDepth) :
    budget depth = budget (depth + 1) + 1 := by
  simp only [budget, maxDepth] at h ⊢
  omega

theorem budget_of_lt {depth : Int} (h : maxDepth < depth) : budget depth = 0 := by
  simp only [budget, maxDepth] at h ⊢
  omega

theorem constant_identifier {ctx : Context} {x : Node} {d : Place} (hx : x.shape = .identifier)
    (hd : ctx.lookup (x.text ctx.source) = some (.declared d)) (depth : Int) :
    constant ctx depth (some x) =
      if depth ≤ maxDepth then constant ctx (depth + 1) (d.node.child? .value)
      else pure .dynamic := by
  have hu : unwrapOf (some x) = some x := Node.unwrap?_of_shape (by simp [hx])
  unfold constant
  split
  · next h =>
    rw [budget_of_le h]
    simp only [folder, Folder.next, hu, foldShape, hx, foldName, hd]
  · next h =>
    rw [budget_of_lt (Int.not_le.1 h)]
    rfl

section Agreement

variable {ctx : Context} {lookup : Lookup} {a : Node}

theorem Agree.of_string (ha : a.shape = .string) : Agree ctx lookup (some a) := by
  have hu : unwrapOf (some a) = some a := Node.unwrap?_of_shape (by simp [ha])
  intro m name hr hm
  rw [(hr.eq_of_plain hu (.inl ha)).2] at hm
  simpa [ha] using hm.shape hu

theorem Agree.of_identifier (ha : a.shape = .identifier)
    (hl : ctx.lookup (a.text ctx.source) = lookup (a.text ctx.source))
    (hd : ∀ d : Place, ctx.lookup (a.text ctx.source) = some (.declared d) →
      Agree ctx lookup (d.node.child? .value)) : Agree ctx lookup (some a) := by
  have hu : unwrapOf (some a) = some a := Node.unwrap?_of_shape (by simp [ha])
  have hname : ∀ {name}, Mentions (some a) name → name = a := by
    intro name hn
    simpa [ha] using hn.shape hu
  intro m name hr hm
  cases hr with
  | refl => rw [hname hm, hl]
  | part hp _ => simpa [ha] using hp.shape hu
  | follow hn hf hr =>
    rw [hname hn] at hf
    cases hf with
    | declared hd' => exact hd _ hd' m name hr hm
    | imported hl =>
      rw [hr.eq_alone] at hl
      cases hl

theorem Agree.of_stringVariable (ha : a.shape = .identifier) {d : Place} {v : Node}
    (hd : ctx.lookup (a.text ctx.source) = some (.declared d))
    (hl : lookup (a.text ctx.source) = some (.declared d))
    (hv : d.node.child? .value = some v) (hs : v.shape = .string) :
    Agree ctx lookup (some a) := by
  refine .of_identifier ha (hd.trans hl.symm) fun e he => ?_
  obtain rfl : d = e := by simpa [hd] using he
  rw [hv]
  exact .of_string hs

end Agreement

/-- Folding in a scope of a program. -/
def inScope (source : Source) (t : ScopeTree) (importer : Option Importer) (i : ScopeId) :
    Context :=
  ⟨source, t.resolve i, importer⟩

variable {source : Source} {t : ScopeTree} {importer : Option Importer} {x : Node} {d : Place}

/-- A variable folds to what its initializer folds to where the variable is declared, in a scope
that agrees with the scope of the declaration on all that folding the initializer looks up. -/
theorem constant_of_agree {i : ScopeId} (hx : x.shape = .identifier)
    (hi : t.resolve i (x.text source) = some (.declared d))
    (ha : Agree (inScope source t importer (t.scopeFor d)) (t.resolve i) (d.node.child? .value))
    (depth : Int) :
    constant (inScope source t importer i) depth (some x) =
      if depth ≤ maxDepth then
        constant (inScope source t importer (t.scopeFor d)) (depth + 1) (d.node.child? .value)
      else pure .dynamic := by
  have hsame := (folder_withLookup _ _ (budget (depth + 1))).constant ha
  rw [constant_identifier (d := d) hx hi, constant, constant, hsame]
  rfl

/-- **A variable folds alike in two scopes just when its initializer does**, one step further in.
That is so, and comes to what the initializer folds to where the variable is declared, if nothing
that folding the initializer looks up is shadowed in either scope. -/
theorem constant_eq_iff {i j : ScopeId} (hx : x.shape = .identifier)
    (hi : t.resolve i (x.text source) = some (.declared d))
    (hj : t.resolve j (x.text source) = some (.declared d)) (depth : Int) :
    (constant (inScope source t importer i) depth (some x) =
        constant (inScope source t importer j) depth (some x) ↔
      (depth ≤ maxDepth →
        constant (inScope source t importer i) (depth + 1) (d.node.child? .value) =
          constant (inScope source t importer j) (depth + 1) (d.node.child? .value))) ∧
    (Agree (inScope source t importer (t.scopeFor d)) (t.resolve i) (d.node.child? .value) →
      Agree (inScope source t importer (t.scopeFor d)) (t.resolve j) (d.node.child? .value) →
      constant (inScope source t importer i) depth (some x) =
          constant (inScope source t importer j) depth (some x) ∧
        constant (inScope source t importer i) depth (some x) =
          if depth ≤ maxDepth then
            constant (inScope source t importer (t.scopeFor d)) (depth + 1)
              (d.node.child? .value)
          else pure .dynamic) := by
  refine ⟨?_, fun hai haj => ?_⟩
  · rw [constant_identifier (d := d) hx hi, constant_identifier (d := d) hx hj]
    split
    · next h => exact ⟨fun he _ => he, fun he => he h⟩
    · next h => exact ⟨fun _ hle => absurd hle h, fun _ => rfl⟩
  · have h := constant_of_agree hx hi hai depth
    exact ⟨h.trans (constant_of_agree hx hj haj depth).symm, h⟩

open ScopeTree (shortDeclaration)

/-- The tree of `const a='x';` from a position on, for names and strings of one letter. -/
def quotedDeclaration (i : Nat) : Node :=
  .mk .none .lexicalDeclaration ⟨i, i + 12⟩
    [.mk .none .variableDeclarator ⟨i + 6, i + 11⟩
      [.mk .name .identifier ⟨i + 6, i + 7⟩ [],
        .mk .value .string ⟨i + 8, i + 11⟩ [.mk .none .stringFragment ⟨i + 9, i + 10⟩ []]]]

/-- The program `const a='x';const b=a;{const a='y';const c=b;}`. -/
def shadowed : Program where
  source := ⟨(Utf8.encode (text "const a='x';const b=a;\x7bconst a='y';const c=b;\x7d")).toArray⟩
  root := .mk .none .program ⟨0, 46⟩
    [quotedDeclaration 0, shortDeclaration 12,
      .mk .none .statementBlock ⟨22, 46⟩ [quotedDeclaration 23, shortDeclaration 35]]

/-- In the block of `shadowed`, `b` is the variable outside, whose initializer is `a`: it folds to
the `a` of the block there, and to the other `a` where it is declared. -/
theorem constant_shadowed : ∃ t, ScopeTree.ofProgram shadowed = .ok t ∧
    ∃ x ∈ (Place.root shadowed.root).preorder, x.node.shape = .identifier ∧
      ∃ d, t.resolve (t.scopeFor x) (x.node.text shadowed.source) = some (.declared d) ∧
        t.resolve (t.scopeFor d) (x.node.text shadowed.source) = some (.declared d) ∧
        (constant (inScope shadowed.source t none (t.scopeFor x)) 0 (some x.node)).outcome =
          .ok (.string (text "y")) ∧
        (constant (inScope shadowed.source t none (t.scopeFor d)) 0 (some x.node)).outcome =
          .ok (.string (text "x")) := by
  have hx := List.get_mem (Place.root shadowed.root).preorder ⟨19, by decide⟩
  exact ⟨_, rfl, _, hx, rfl, _, rfl, rfl, rfl, rfl⟩

/-- The program `const a='x';const b=a;{const d='y';const c=b;}`. -/
def unshadowed : Program where
  source := ⟨(Utf8.encode (text "const a='x';const b=a;\x7bconst d='y';const c=b;\x7d")).toArray⟩
  root := shadowed.root

/-- The `b` in the block of `unshadowed`. -/
def unshadowedUse : Place := (Place.root unshadowed.root).preorder.get ⟨19, by decide⟩

/-- In the block of `unshadowed`, `b` folds to what it folds to outside. -/
theorem constant_unshadowed : ∃ t, ScopeTree.ofProgram unshadowed = .ok t ∧
    t.scopeFor unshadowedUse ≠ ScopeTree.programScope ∧
    constant (inScope unshadowed.source t none (t.scopeFor unshadowedUse)) 0
        (some unshadowedUse.node) =
      constant (inScope unshadowed.source t none ScopeTree.programScope) 0
        (some unshadowedUse.node) := by
  obtain ⟨t, b, v, a, ht, hne, hin, hout, hb, hv, hvs, hain, haout, ha⟩ :
      ∃ t b v a, ScopeTree.ofProgram unshadowed = .ok t ∧
        t.scopeFor unshadowedUse ≠ ScopeTree.programScope ∧
        t.resolve (t.scopeFor unshadowedUse) (text "b") = some (.declared b) ∧
        t.resolve ScopeTree.programScope (text "b") = some (.declared b) ∧
        t.scopeFor b = ScopeTree.programScope ∧ b.node.child? .value = some v ∧
        v.shape = .identifier ∧
        t.resolve (t.scopeFor unshadowedUse) (v.text unshadowed.source) = some (.declared a) ∧
        t.resolve ScopeTree.programScope (v.text unshadowed.source) = some (.declared a) ∧
        (a.node.child? .value).map Node.shape = some .string :=
    ⟨_, _, _, _, rfl, by decide +kernel, rfl, rfl, rfl, rfl, rfl, rfl, rfl, rfl⟩
  obtain ⟨w, hw, hws⟩ := Option.map_eq_some_iff.1 ha
  have hagree : ∀ i, t.resolve i (v.text unshadowed.source) = some (.declared a) →
      Agree (inScope unshadowed.source t none (t.scopeFor b)) (t.resolve i)
        (b.node.child? .value) := by
    intro i hi
    rw [hb, hv]
    exact .of_stringVariable hvs haout hi hw hws
  have h := (constant_eq_iff (x := unshadowedUse.node) rfl hin hout 0).2 (hagree _ hain)
    (hagree _ haout)
  exact ⟨t, ht, hne, h.1⟩

end KeyTrace.Fold
