/-
Variables whose initializers refer to one another in a circle fold to no string.

Folding at a depth is the only solution of its recursion equation, in which every name
and every part takes a step of the depth (`constant_unique`); so it comes to an end. What
it requires of other expressions without end is no string, since strings are derived.
-/
import KeyTrace.Proofs.Analysis.Escapes
import KeyTrace.Proofs.Fold.Derivations
import Mathlib.Order.WellFounded

namespace KeyTrace.Fold

section Recursion

variable {f : Context → Int → Option Node → Traced Folded}

/-- Folding an expression at a depth, when it is known how to fold at greater depths. The value of
a shorthand in a record is two steps from the array, and is folded without a look at the depth
between them. -/
def level (f : Context → Int → Option Node → Traced Folded) (ctx : Context) (depth : Int)
    (n : Option Node) : Traced Folded :=
  match unwrapOf n with
  | none => return .dynamic
  | some a =>
    if maxDepth < depth then return .dynamic
    else
      foldShape ctx (fun c => ⟨f c (depth + 1), foldName (fun c => f c (depth + 2)) c⟩) a

theorem constant_of_lt {depth : Int} (h : maxDepth < depth) :
    (fun c => constant c depth) = fun _ _ => pure .dynamic := by
  funext c n
  rw [constant, budget_of_lt h]
  rfl

theorem folder_name (depth : Int) (ctx : Context) :
    (folder (budget depth) ctx).name = foldName (fun c => constant c (depth + 1)) ctx := by
  by_cases h : depth ≤ maxDepth
  · rw [budget_of_le h]
    rfl
  · have hlt : maxDepth < depth := Int.not_le.1 h
    rw [constant_of_lt (by omega), budget_of_lt hlt]
    rfl

theorem constant_eq_level : constant = level constant := by
  funext ctx depth n
  by_cases h : depth ≤ maxDepth
  · have hbelow : folder (budget (depth + 1)) = fun c =>
        ⟨constant c (depth + 1), foldName (fun c => constant c (depth + 2)) c⟩ := by
      funext c
      exact congrArg (Folder.mk _) ((folder_name (depth + 1) c).trans (by rw [Int.add_assoc]; rfl))
    simp only [level, ← hbelow, constant, budget_of_le h, if_neg (Int.not_lt.2 h)]
    rfl
  · have hlt := Int.not_le.1 h
    rw [congrFun (congrFun (constant_of_lt hlt) ctx) n]
    simp only [level, if_pos hlt]
    split <;> rfl

/-- There is no other solution: what is left of the depth goes down. -/
theorem constant_unique (h : f = level f) : f = constant := by
  -- By induction on what is left of the depth: both solutions go down in it.
  have hdepth : ∀ (b : Nat) (depth : Int), budget depth ≤ b →
      ∀ c, f c depth = constant c depth := by
    intro b
    induction b with
    | zero =>
      intro depth hb c
      have hlt : maxDepth < depth := by
        simp only [budget, maxDepth] at hb ⊢
        omega
      funext n
      rw [h, constant_eq_level]
      simp only [level, if_pos hlt]
    | succ b ih =>
      intro depth hb c
      have hless (k : Int) (hk : 0 < k) : budget (depth + k) ≤ b := by
        simp only [budget, maxDepth] at hb ⊢
        omega
      funext n
      rw [h, constant_eq_level]
      simp only [level, ih _ (hless 1 (by decide)), ih _ (hless 2 (by decide))]
  funext ctx depth
  exact hdepth (budget depth) depth (Nat.le_refl _) ctx

end Recursion

theorem not_string_of_endless {ctx : Context} {chain : Nat → Option Node}
    (h : ∀ i, ∃ deeper, Requires ctx (chain i) deeper (chain (i + 1))) (depth : Int) (s : Text) :
    (constant ctx depth (chain 0)).outcome ≠ .ok (.string s) := by
  intro hs
  obtain ⟨-, hd⟩ := constant_string_iff.1 hs
  exact (acc_iff_isEmpty_descending_chain.1 hd.acc).false ⟨chain, rfl, h⟩

/-- **Names that refer to one another in a circle fold to no string.** Folding is the one function
that does what folding at a depth does; it has a result for every expression of a program that is
read, at every depth, when the importer answers. An expression that requires others without end
folds to no string at any depth. What folds to a string has a derivation, and over all that it
requires no more steps of the depth are taken than there are left. -/
theorem constant_string_acyclic :
    (∀ f, f = level f ↔ f = constant) ∧
    (∀ doc grammars p, (Program.read doc grammars).outcome = .ok (some p) →
      ∀ t, ScopeTree.ofProgram p = .ok t → ∀ importer, Answers importer →
      ∀ i n, p.Holds n → ∀ depth,
        ∃ v, (constant (inScope p.source t importer i) depth (some n)).outcome = .ok v) ∧
    ∀ (ctx : Context) (n : Option Node),
      (Answers ctx.importer → Cooks ctx n → ∀ depth, ∃ v, (constant ctx depth n).outcome = .ok v) ∧
      (∀ chain : Nat → Option Node, chain 0 = n →
        (∀ i, ∃ deeper, Requires ctx (chain i) deeper (chain (i + 1))) →
        ∀ depth s, (constant ctx depth n).outcome ≠ .ok (.string s)) ∧
      (∀ depth s, (constant ctx depth n).outcome = .ok (.string s) ↔
        depth ≤ maxDepth ∧ Derives ctx (maxDepth - depth).toNat n s) ∧
      ∀ depth s, (constant ctx depth n).outcome = .ok (.string s) →
        ∀ steps m, Chain ctx n steps m → (steps : Int) ≤ maxDepth - depth := by
  refine ⟨fun f => ⟨constant_unique, fun h => h ▸ constant_eq_level⟩, ?_,
    fun ctx n => ⟨?_, ?_, ?_, ?_⟩⟩
  · intro doc grammars p h t ht importer ha i n hn depth
    have hp := Program.legal_of_read h
    have hw : (inScope p.source t importer i).Within p :=
      within_resolve ht (Program.kind_root_of_read h) importer i
    refine (folder_returns (budget depth)).constant _ _ ha (cooks_of_holds hp hw ?_)
    rintro _ ⟨⟩
    exact hn
  · exact fun ha hc depth => (folder_returns (budget depth)).constant ctx n ha hc
  · rintro chain rfl h
    exact not_string_of_endless h
  · exact fun depth s => constant_string_iff
  · intro depth s h steps m hm
    obtain ⟨hd, hderives⟩ := constant_string_iff.1 h
    have := hm.le hderives
    omega

section Example

/-- The text ``const a=b+'x';const b=`${a}`;``. -/
def circularText : Text := text "const a=b+'x';const b=`$\x7ba\x7d`;"

/-- The name `a` in the template. -/
def circularName : Node := .mk .none .identifier ⟨25, 26⟩ []

/-- The string `'x'`. -/
def circularString : Node := .mk .right .string ⟨10, 13⟩ [.mk .none .stringFragment ⟨11, 12⟩ []]

/-- The value of `a`. -/
def circularSum : Node :=
  .mk .value (.binaryExpression .plus) ⟨8, 13⟩ [.mk .left .identifier ⟨8, 9⟩ [], circularString]

/-- The value of `b`. -/
def circularTemplate : Node :=
  .mk .value .templateString ⟨22, 28⟩ [.mk .none .templateSubstitution ⟨23, 27⟩ [circularName]]

/-- The program of `circularText`. -/
def circular : Program where
  source := ⟨(Utf8.encode circularText).toArray⟩
  root := .mk .none .program ⟨0, 29⟩
    [.mk .none .lexicalDeclaration ⟨0, 14⟩
      [.mk .none .variableDeclarator ⟨6, 13⟩ [.mk .name .identifier ⟨6, 7⟩ [], circularSum]],
      .mk .none .lexicalDeclaration ⟨14, 29⟩
        [.mk .none .variableDeclarator ⟨20, 28⟩
          [.mk .name .identifier ⟨20, 21⟩ [], circularTemplate]]]

/-- What the name `a` in the template requires, over and over. -/
def circularChain (i : Nat) : Option Node :=
  match i % 4 with
  | 0 => some circularName
  | 1 => some circularSum
  | 2 => circularSum.child? .left
  | _ => some circularTemplate

/-- Every expression of `circular` is folded at every depth. The name in the template requires
itself and is no string; the string in the value of `a` is one, even where there is no step left, so
nothing that it requires takes a step. -/
theorem constant_string_acyclic_circular :
    (∃ p t, (Program.ofText circularText).outcome = .ok (some p) ∧ ScopeTree.ofProgram p = .ok t ∧
      ∀ n, p.Holds n → ∀ depth,
        ∃ v, (constant (inScope p.source t none ScopeTree.programScope) depth (some n)).outcome =
          .ok v) ∧
    ∃ t, ScopeTree.ofProgram circular = .ok t ∧
      (∀ depth s, (constant (inScope circular.source t none ScopeTree.programScope) depth
        (some circularName)).outcome ≠ .ok (.string s)) ∧
      (∀ depth, ∃ v, (constant (inScope circular.source t none ScopeTree.programScope) depth
        (some circularString)).outcome = .ok v) ∧
      ∀ steps m, Chain (inScope circular.source t none ScopeTree.programScope)
        (some circularString) steps m → steps = 0 := by
  constructor
  · have hread : (Program.ofText circularText).outcome.toOption.join.isSome = true := by
      decide +kernel
    obtain ⟨p, hp⟩ := Option.isSome_iff_exists.1 hread
    have hr := Traced.outcome_of_toOption (Option.join_eq_some_iff.1 hp)
    obtain ⟨⟨t, ht⟩, -⟩ := Accessor.Workplace.ofProgram_ok (Program.legal_of_read hr)
      (Program.kind_root_of_ofText hr) none []
    exact ⟨p, t, hr, ht, constant_string_acyclic.2.1 _ _ p hr t ht none nofun _⟩
  · obtain ⟨t, ht, hsum, htemplate, hstring⟩ : ∃ t, ScopeTree.ofProgram circular = .ok t ∧
        (∃ d, t.resolve ScopeTree.programScope (text "a") = some (.declared d) ∧
          d.node.child? .value = some circularSum) ∧
        (∃ d, t.resolve ScopeTree.programScope (text "b") = some (.declared d) ∧
          d.node.child? .value = some circularTemplate) ∧
        (constant (inScope circular.source t none ScopeTree.programScope) maxDepth
          (some circularString)).outcome = .ok (.string (text "x")) :=
      ⟨_, rfl, ⟨_, rfl, rfl⟩, ⟨_, rfl, rfl⟩, rfl⟩
    have hchain : ∀ i, ∃ deeper, Requires (inScope circular.source t none ScopeTree.programScope)
        (circularChain i) deeper (circularChain (i + 1)) := by
      intro i
      have hcases : i % 4 = 0 ∧ (i + 1) % 4 = 1 ∨ i % 4 = 1 ∧ (i + 1) % 4 = 2 ∨
          i % 4 = 2 ∧ (i + 1) % 4 = 3 ∨ i % 4 = 3 ∧ (i + 1) % 4 = 0 := by omega
      refine ⟨true, ?_⟩
      rcases hcases with ⟨h, h'⟩ | ⟨h, h'⟩ | ⟨h, h'⟩ | ⟨h, h'⟩ <;>
        simp only [circularChain, h, h']
      · obtain ⟨d, hd, hv⟩ := hsum
        exact hv ▸ .initializer rfl hd
      · exact .left rfl
      · obtain ⟨d, hd, hv⟩ := htemplate
        exact hv ▸ .initializer rfl hd
      · exact .expression rfl rfl (.head _)
    have hcooks : Cooks (inScope circular.source t none ScopeTree.programScope)
        (some circularString) := by
      intro ctx' m a hr ha
      obtain ⟨rfl, rfl⟩ := hr.eq_of_plain rfl (.inl rfl)
      cases ha
      exact ⟨fun _ => ⟨_, rfl⟩, nofun⟩
    refine ⟨t, ht, ?_, ?_, ?_⟩
    · exact (constant_string_acyclic.2.2 _ _).2.1 circularChain rfl hchain
    · exact (constant_string_acyclic.2.2 _ _).1 nofun hcooks
    · intro steps m hm
      have := (constant_string_acyclic.2.2 _ _).2.2.2 maxDepth _ hstring steps m hm
      omega

end Example

end KeyTrace.Fold
