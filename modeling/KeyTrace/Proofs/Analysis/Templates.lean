/-
Namespaces that are written as templates.

A template that does not fold where a call stands is joined from substitutions that
start anew. Joined like that it is what it folds to a step further out
(`constant_template_iff`): so the second way answers all that the first does, and as it does.
-/
import KeyTrace.Analysis.Namespace
import KeyTrace.Proofs.Fold.Derivations

namespace KeyTrace

namespace Fold

variable {ctx : Context} {n : Option Node} {a : Node} {s : Text} {depth depth' : Int}

theorem constant_string_outwards (h : depth' ≤ depth)
    (hs : (constant ctx depth n).outcome = .ok (.string s)) :
    (constant ctx depth' n).outcome = .ok (.string s) := by
  have hb : budget depth ≤ budget depth' := by
    simp only [budget]
    omega
  exact ((folder_refines hb).constant ctx n).string s hs

theorem constant_returns_of_string (hs : (constant ctx depth n).outcome = .ok (.string s))
    (depth' : Int) : ∃ v, (constant ctx depth' n).outcome = .ok v :=
  (constant_string_iff.1 hs).2.returns (budget depth')

theorem constant_template_iff (ha : a.shape = .template) :
    (constant ctx depth (some a)).outcome = .ok (.string s) ↔
      depth ≤ maxDepth ∧
        (foldTemplate ctx.source (constant ctx (depth + 1)) a).outcome = .ok (some s) := by
  have hu : unwrapOf (some a) = some a := Node.unwrap?_of_shape (by simp [ha])
  by_cases h : depth ≤ maxDepth
  · have hfold : constant ctx depth (some a) =
        (do return ofString? (← foldTemplate ctx.source (constant ctx (depth + 1)) a)) := by
      rw [constant_of_le h hu, foldShape, ha]
      rfl
    rw [hfold, Traced.bind_ok_iff, and_iff_right h]
    constructor
    · rintro ⟨o, ho, hv⟩
      cases o with
      | none => cases hv
      | some s' =>
        cases hv
        exact ho
    · exact fun ho => ⟨_, ho, rfl⟩
  · rw [constant, budget_of_lt (Int.not_le.1 h)]
    refine iff_of_false (fun hs => ?_) fun hle => h hle.1
    cases hs

/-- A step before the first depth a template folds to what it is joined to anew. -/
theorem constant_template_anew_iff (ha : a.shape = .template) :
    (constant ctx (-1) (some a)).outcome = .ok (.string s) ↔
      (foldTemplate ctx.source (constant ctx 0) a).outcome = .ok (some s) :=
  (constant_template_iff ha).trans (and_iff_right (by decide))

end Fold

namespace Namespace

open Fold

variable {ctx : Context} {label s : Text} {line : Nat} {call first : Node} {rest : List Node}

/-- What is tried for a call whose first argument is a template, one after the other. -/
theorem resolve_of_template (hargs : call.callArguments?.getD [] = first :: rest)
    (hs : first.shape = .template) :
    resolve ctx label line call = (do
      match ← constant ctx 0 (some first) with
      | .string s => return .static s
      | _ =>
        match ← foldTemplate ctx.source (constant ctx 0) first with
        | some s => return .static s
        | none => return .dynamic (placeholder (text "dynamic") label line)) := by
  unfold resolve
  rw [hargs]
  refine bind_congr fun v => ?_
  cases v with
  | string s => rfl
  | dynamic | strings | records => exact if_pos hs

theorem resolve_static_iff (hargs : call.callArguments?.getD [] = first :: rest)
    (hs : first.shape = .template) :
    (resolve ctx label line call).outcome = .ok (.static s) ↔
      (foldTemplate ctx.source (constant ctx 0) first).outcome = .ok (some s) := by
  rw [resolve_of_template hargs hs, Traced.bind_ok_iff]
  constructor
  · rintro ⟨v, hv, h⟩
    cases v with
    | string s' =>
      cases h
      exact (constant_template_anew_iff hs).1 (constant_string_outwards (by decide) hv)
    | dynamic | strings | records =>
      obtain ⟨o, ho, h⟩ := Traced.bind_ok_iff.1 h
      cases o with
      | none => cases h
      | some s' =>
        cases h
        exact ho
  · intro hjoin
    obtain ⟨v, hv⟩ := constant_returns_of_string ((constant_template_anew_iff hs).2 hjoin) 0
    refine ⟨v, hv, ?_⟩
    cases v with
    | string s' =>
      have hanew := (constant_template_anew_iff hs).1 (constant_string_outwards (by decide) hv)
      cases hanew.symm.trans hjoin
      rfl
    | dynamic | strings | records => exact Traced.bind_ok_iff.2 ⟨_, hjoin, rfl⟩

/-- **The two ways to the namespace of a template agree.** It is what the template folds to a step
before the first depth. What the template folds to where the call stands, it is joined to; and to be
joined lets every substitution start one step further out. If neither way finds a string, the
namespace is a placeholder for the line. -/
theorem resolve_template (hargs : call.callArguments?.getD [] = first :: rest)
    (hs : first.shape = .template) (ctx : Context) (label : Text) (line : Nat) :
    (∀ s, (resolve ctx label line call).outcome = .ok (.static s) ↔
      (constant ctx (-1) (some first)).outcome = .ok (.string s)) ∧
    (∀ s, (constant ctx 0 (some first)).outcome = .ok (.string s) →
      (foldTemplate ctx.source (constant ctx 0) first).outcome = .ok (some s)) ∧
    (∀ s, (constant ctx 0 (some first)).outcome = .ok (.string s) ↔
      ∃ t values, Literal.Template.ofNode ctx.source first = .ok t ∧
        List.Forall₂ (fun e v => (constant ctx 1 e).outcome = .ok (.string v))
          t.expressions values ∧ s = t.fill values) ∧
    (∀ s, (resolve ctx label line call).outcome = .ok (.static s) ↔
      ∃ t values, Literal.Template.ofNode ctx.source first = .ok t ∧
        List.Forall₂ (fun e v => (constant ctx 0 e).outcome = .ok (.string v))
          t.expressions values ∧ s = t.fill values) ∧
    (Answers ctx.importer → Cooks ctx (some first) →
      (∃ s, (resolve ctx label line call).outcome = .ok (.static s)) ∨
        (resolve ctx label line call).outcome =
          .ok (.dynamic (placeholder (text "dynamic") label line))) := by
  refine ⟨fun s => (resolve_static_iff hargs hs).trans (constant_template_anew_iff hs).symm,
    fun s h => (constant_template_anew_iff hs).1 (constant_string_outwards (by decide) h),
    fun s => ?_,
    fun s => (resolve_static_iff hargs hs).trans foldTemplate_eq_some_iff, fun ha hc => ?_⟩
  · exact (constant_template_iff hs).trans
      ((and_iff_right (by decide)).trans foldTemplate_eq_some_iff)
  -- Both attempts return, so the placeholder is what is left where neither gives a string.
  · have hu : unwrapOf (some first) = some first := Node.unwrap?_of_shape (by simp [hs])
    obtain ⟨v, hv⟩ : ∃ v, (constant ctx 0 (some first)).outcome = .ok v :=
      (folder_returns (budget 0)).constant ctx (some first) ha hc
    obtain ⟨o, ho⟩ : ∃ o, (foldTemplate ctx.source (constant ctx 0) first).outcome = .ok o :=
      returns_of_blames (foldTemplate_blames (folder_blames (budget 0)) hc hu hs) ha
    rw [resolve_of_template hargs hs, Traced.bind_of_ok hv]
    cases v with
    | string s => exact .inl ⟨s, rfl⟩
    | dynamic | strings | records =>
      dsimp only
      rw [Traced.bind_of_ok ho]
      cases o with
      | none => exact .inr rfl
      | some s => exact .inl ⟨s, rfl⟩

section Example

open ScopeTree (shortDeclaration)

/-- The template of `aliased`. -/
def aliasedTemplate : Node :=
  .mk .none .templateString ⟨68, 74⟩
    [.mk .none .templateSubstitution ⟨69, 73⟩ [.mk .none .identifier ⟨71, 72⟩ []]]

/-- The call in `aliased`. -/
def aliasedCall : Node :=
  .mk .none .callExpression ⟨52, 75⟩
    [.mk .function .identifier ⟨52, 67⟩ [], .mk .arguments .arguments ⟨67, 75⟩ [aliasedTemplate]]

/-- The program
``const a='x';const b=a;const c=b;const d=c;const e=d;useTranslations(`${e}`)``. -/
def aliased : Program where
  source := ⟨(Utf8.encode (text <| "const a='x';const b=a;const c=b;const d=c;const e=d;" ++
    "useTranslations(`$\x7be\x7d`)")).toArray⟩
  root := .mk .none .program ⟨0, 75⟩
    [quotedDeclaration 0, shortDeclaration 12, shortDeclaration 22, shortDeclaration 32,
      shortDeclaration 42, .mk .none .otherStatement ⟨52, 75⟩ [aliasedCall]]

/-- The text of ``f(`x`)``. -/
def plain : Source := ⟨(Utf8.encode (text "f(`x`)")).toArray⟩

/-- The template of `plain`. -/
def plainTemplate : Node :=
  .mk .none .templateString ⟨2, 5⟩ [.mk .none .stringFragment ⟨3, 4⟩ []]

/-- The call of `plain`. -/
def plainCall : Node :=
  .mk .none .callExpression ⟨0, 6⟩
    [.mk .function .identifier ⟨0, 1⟩ [], .mk .arguments .arguments ⟨1, 6⟩ [plainTemplate]]

theorem cooks_plain : Cooks (.alone plain) (some plainTemplate) := by
  intro ctx' m a hr ha
  cases hr with
  | refl =>
    cases ha
    exact ⟨nofun, fun _ => ⟨_, rfl⟩⟩
  | part hp _ =>
    cases hp with
    | element hu hs | left hu hs | right hu hs =>
      cases hu
      cases hs
    | property ho =>
      obtain ⟨_, hu, hs, -⟩ := ho
      cases hu
      cases hs
    | substitution hu _ ht he =>
      cases hu
      cases ht
      cases he
  | follow _ hf _ => exact absurd hf not_follows_alone

/-- The template of `aliased` folds to nothing known where it stands, as `'x'` is one step too far;
the namespace of the call is `x` nevertheless. That of `plain` is found at once. -/
theorem resolve_template_aliased : ∃ t, ScopeTree.ofProgram aliased = .ok t ∧
    (constant (inScope aliased.source t none ScopeTree.programScope) 0
      (some aliasedTemplate)).outcome = .ok .dynamic ∧
    (resolve (inScope aliased.source t none ScopeTree.programScope) [] 1 aliasedCall).outcome =
      .ok (.static (text "x")) ∧
    ∃ ns, (resolve (.alone plain) [] 1 plainCall).outcome = .ok ns := by
  obtain ⟨t, ht, hfold, houtwards⟩ : ∃ t, ScopeTree.ofProgram aliased = .ok t ∧
      (constant (inScope aliased.source t none ScopeTree.programScope) 0
        (some aliasedTemplate)).outcome = .ok .dynamic ∧
      (constant (inScope aliased.source t none ScopeTree.programScope) (-1)
        (some aliasedTemplate)).outcome = .ok (.string (text "x")) := ⟨_, rfl, rfl, rfl⟩
  have hargs : aliasedCall.callArguments?.getD [] = [aliasedTemplate] := rfl
  have haliased :=
    resolve_template hargs rfl (inScope aliased.source t none ScopeTree.programScope) [] 1
  have hargs : plainCall.callArguments?.getD [] = [plainTemplate] := rfl
  have hplain := resolve_template hargs rfl (.alone plain) [] 1
  exact ⟨t, ht, hfold, (haliased.1 _).2 houtwards,
    (hplain.2.2.2.2 nofun cooks_plain).elim (fun ⟨s, hs⟩ => ⟨_, hs⟩) fun h => ⟨_, h⟩⟩

end Example

end Namespace
end KeyTrace
