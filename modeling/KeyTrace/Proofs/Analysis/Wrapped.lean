/-
Namespaces that are written in parentheses or under a type assertion.

Folding sees no wrappers, but the second way to the namespace of a template is open to a
template alone, and not to a wrapper around one. So a wrapper takes a namespace away
from a call just when its template is joined anew to a string and does not fold to one
where the call stands (`resolve_wrapped`).
-/
import KeyTrace.Proofs.Analysis.Erasure
import KeyTrace.Proofs.Analysis.Templates

namespace KeyTrace.Namespace

open Fold
open Node (core coreOf)

variable {ctx ctx' : Context} {label s : Text} {line : Nat} {call call' first wrapped : Node}
  {rest rest' : List Node}

theorem resolve_of_not_template (hargs : call.callArguments?.getD [] = first :: rest)
    (hs : first.shape ≠ .template) :
    resolve ctx label line call = (do
      match ← constant ctx 0 (some first) with
      | .string s => return .static s
      | _ => return .dynamic (placeholder (text "dynamic") label line)) := by
  unfold resolve
  rw [hargs]
  refine bind_congr fun v => ?_
  cases v with
  | string s => rfl
  | dynamic | strings | records => exact if_neg hs

theorem resolve_static_iff_of_not_template
    (hargs : call.callArguments?.getD [] = first :: rest) (hs : first.shape ≠ .template) :
    (resolve ctx label line call).outcome = .ok (.static s) ↔
      (constant ctx 0 (some first)).outcome = .ok (.string s) := by
  rw [resolve_of_not_template hargs hs, Traced.bind_ok_iff]
  constructor
  · rintro ⟨v, hv, h⟩
    cases v with
    | string s' =>
      cases h
      exact hv
    | dynamic | strings | records => cases h
  · exact fun h => ⟨_, h, rfl⟩

theorem resolve_static_iff_or (hargs : call.callArguments?.getD [] = first :: rest) :
    (resolve ctx label line call).outcome = .ok (.static s) ↔
      (constant ctx 0 (some first)).outcome = .ok (.string s) ∨
        first.shape = .template ∧ (constant ctx (-1) (some first)).outcome = .ok (.string s) := by
  by_cases hs : first.shape = .template
  · rw [resolve_static_iff hargs hs, ← constant_template_anew_iff hs, and_iff_right hs,
      or_iff_right_of_imp (constant_string_outwards (by decide))]
  · rw [resolve_static_iff_of_not_template hargs hs, or_iff_left fun h => hs h.1]

/-- Without its template in sight a call has the namespace of the call with the template just when
the template folds, or fails to, where it stands, or is not joined anew either. -/
theorem resolve_eq_of_template (hargs : call.callArguments?.getD [] = first :: rest)
    (hargs' : call'.callArguments?.getD [] = wrapped :: rest') (hs : first.shape = .template)
    (hs' : wrapped.shape ≠ .template)
    (hfold : (constant ctx 0 (some first)).outcome = (constant ctx' 0 (some wrapped)).outcome) :
    (resolve ctx' label line call').outcome = (resolve ctx label line call).outcome ↔
      ∀ v, (constant ctx 0 (some first)).outcome = .ok v → v.string? = none →
        (foldTemplate ctx.source (constant ctx 0) first).outcome = .ok none := by
  rw [resolve_of_template hargs hs, resolve_of_not_template hargs' hs']
  cases hv : (constant ctx 0 (some first)).outcome with
  | error e =>
    rw [Traced.bind_of_error hv, Traced.bind_of_error (hfold.symm.trans hv)]
    exact iff_of_true rfl nofun
  | ok v =>
    rw [Traced.bind_of_ok hv, Traced.bind_of_ok (hfold.symm.trans hv)]
    cases v with
    | string s =>
      refine iff_of_true rfl fun v hv hnone => ?_
      cases hv
      cases hnone
    | dynamic | strings | records =>
      dsimp only
      cases ho : (foldTemplate ctx.source (constant ctx 0) first).outcome with
      | error e =>
        rw [Traced.bind_of_error ho]
        exact iff_of_false nofun fun h => nomatch h _ rfl rfl
      | ok o =>
        rw [Traced.bind_of_ok ho]
        cases o with
        | none => exact iff_of_true rfl fun _ _ _ => rfl
        | some s => exact iff_of_false nofun fun h => nomatch h _ rfl rfl

/-- **A wrapper around the argument of a call changes its namespace just when** the argument is a
template that does not fold to a string where it stands, and is not given up when its substitutions
start anew. What is wrapped has the namespace that it folds to; what is not has that too, or, being
a template, the one that it folds to a step before the first depth. -/
theorem resolve_wrapped (hctx : ctx.Alike ctx')
    (hargs : call.callArguments?.getD [] = first :: rest)
    (hargs' : call'.callArguments?.getD [] = wrapped :: rest') (hw : wrapped.shape = .wrapper)
    (hsame : core ctx.source first = core ctx'.source wrapped) (label : Text) (line : Nat) :
    ((resolve ctx' label line call').outcome = (resolve ctx label line call).outcome ↔
      (first.shape = .template →
        ∀ v, (constant ctx 0 (some first)).outcome = .ok v → v.string? = none →
          (foldTemplate ctx.source (constant ctx 0) first).outcome = .ok none)) ∧
    (∀ s, (resolve ctx' label line call').outcome = .ok (.static s) ↔
      (constant ctx 0 (some first)).outcome = .ok (.string s)) ∧
    (∀ s, (resolve ctx label line call).outcome = .ok (.static s) ↔
      (constant ctx 0 (some first)).outcome = .ok (.string s) ∨
        first.shape = .template ∧ (constant ctx (-1) (some first)).outcome = .ok (.string s)) := by
  have hw' : wrapped.shape ≠ .template := by
    rw [hw]
    nofun
  have hfold : (constant ctx 0 (some first)).outcome = (constant ctx' 0 (some wrapped)).outcome :=
    constant_erased hctx (show coreOf ctx.source (some first) = coreOf ctx'.source (some wrapped)
      from hsame) 0
  refine ⟨?_, fun s => ?_, fun s => resolve_static_iff_or hargs⟩
  · by_cases hs : first.shape = .template
    · rw [resolve_eq_of_template hargs hargs' hs hw' hfold]
      exact ⟨fun h _ => h, fun h => h hs⟩
    · refine iff_of_true ?_ fun h => absurd h hs
      rw [resolve_of_not_template hargs hs, resolve_of_not_template hargs' hw']
      exact Traced.bind_outcome_congr hfold.symm fun _ => rfl
  · rw [resolve_static_iff_of_not_template hargs' hw', hfold]

section Example

open ScopeTree (shortDeclaration)

/-- The template of `parenthesized`. -/
def parenthesizedTemplate : Node :=
  .mk .none .templateString ⟨69, 75⟩
    [.mk .none .templateSubstitution ⟨70, 74⟩ [.mk .none .identifier ⟨72, 73⟩ []]]

/-- The argument in `parenthesized`. -/
def parenthesizedArgument : Node :=
  .mk .none .parenthesizedExpression ⟨68, 76⟩ [parenthesizedTemplate]

/-- A call in `parenthesized`, by its argument. -/
def parenthesizedCall (argument : Node) : Node :=
  .mk .none .callExpression ⟨52, 77⟩
    [.mk .function .identifier ⟨52, 67⟩ [], .mk .arguments .arguments ⟨67, 77⟩ [argument]]

/-- The program
``const a='x';const b=a;const c=b;const d=c;const e=d;useTranslations((`${e}`))``. -/
def parenthesized : Program where
  source := ⟨(Utf8.encode (text <| "const a='x';const b=a;const c=b;const d=c;const e=d;" ++
    "useTranslations((`$\x7be\x7d`))")).toArray⟩
  root := .mk .none .program ⟨0, 77⟩
    [quotedDeclaration 0, shortDeclaration 12, shortDeclaration 22, shortDeclaration 32,
      shortDeclaration 42, .mk .none .otherStatement ⟨52, 77⟩
        [parenthesizedCall parenthesizedArgument]]

/-- The parentheses take the namespace `x` away, from the call in `parenthesized` and from the same
call in `aliased`. -/
theorem resolve_parenthesized :
    core aliased.source aliasedTemplate = core parenthesized.source parenthesizedArgument ∧
    ∃ t t', ScopeTree.ofProgram aliased = .ok t ∧ ScopeTree.ofProgram parenthesized = .ok t' ∧
      (resolve (inScope aliased.source t none ScopeTree.programScope) [] 1 aliasedCall).outcome =
        .ok (.static (text "x")) ∧
      (resolve (inScope parenthesized.source t' none ScopeTree.programScope) [] 1
        (parenthesizedCall parenthesizedTemplate)).outcome = .ok (.static (text "x")) ∧
      (resolve (inScope parenthesized.source t' none ScopeTree.programScope) [] 1
        (parenthesizedCall parenthesizedArgument)).outcome =
          .ok (.dynamic (text "<dynamic::L1>")) := by
  refine ⟨?_, _, _, rfl, rfl, rfl, rfl, rfl⟩
  have haliased (s : Source) : core s aliasedTemplate =
      some (.mk .none .templateString [s.slice ⟨69, 69⟩, s.slice ⟨73, 73⟩]
        [.mk .none .templateSubstitution [] [.mk .none .identifier [s.slice ⟨71, 72⟩] []]]) := rfl
  have hparenthesized (s : Source) : core s parenthesizedArgument =
      some (.mk .none .templateString [s.slice ⟨70, 70⟩, s.slice ⟨74, 74⟩]
        [.mk .none .templateSubstitution [] [.mk .none .identifier [s.slice ⟨72, 73⟩] []]]) := rfl
  obtain ⟨hfirst, hname, hlast⟩ :
      aliased.source.slice ⟨69, 69⟩ = parenthesized.source.slice ⟨70, 70⟩ ∧
        aliased.source.slice ⟨71, 72⟩ = parenthesized.source.slice ⟨72, 73⟩ ∧
        aliased.source.slice ⟨73, 73⟩ = parenthesized.source.slice ⟨74, 74⟩ := by
    decide +kernel
  rw [haliased, hparenthesized, hfirst, hname, hlast]

/-- The text of ``f((`x`))``. -/
def plainParenthesized : Source := ⟨(Utf8.encode (text "f((`x`))")).toArray⟩

/-- The template of `plainParenthesized`. -/
def bareTemplate : Node :=
  .mk .none .templateString ⟨3, 6⟩ [.mk .none .stringFragment ⟨4, 5⟩ []]

/-- The call of `plainParenthesized`, by its argument. -/
def bareCall (argument : Node) : Node :=
  .mk .none .callExpression ⟨0, 8⟩
    [.mk .function .identifier ⟨0, 1⟩ [], .mk .arguments .arguments ⟨1, 8⟩ [argument]]

/-- A template that folds where it stands keeps its namespace in parentheses. -/
theorem resolve_wrapped_plain :
    let wrapped : Node := .mk .none .parenthesizedExpression ⟨2, 7⟩ [bareTemplate]
    wrapped.shape = .wrapper ∧
    core plainParenthesized bareTemplate = core plainParenthesized wrapped ∧
    (resolve (.alone plainParenthesized) [] 1 (bareCall wrapped)).outcome =
      (resolve (.alone plainParenthesized) [] 1 (bareCall bareTemplate)).outcome ∧
    (resolve (.alone plainParenthesized) [] 1 (bareCall wrapped)).outcome =
      .ok (.static (text "x")) := by
  intro wrapped
  have hfold : (constant (.alone plainParenthesized) 0 (some bareTemplate)).outcome =
      .ok (.string (text "x")) := rfl
  have hargs : (bareCall bareTemplate).callArguments?.getD [] = [bareTemplate] := rfl
  have hargs' : (bareCall wrapped).callArguments?.getD [] = [wrapped] := rfl
  have hsame : core (Context.alone plainParenthesized).source bareTemplate =
    core (Context.alone plainParenthesized).source wrapped := rfl
  obtain ⟨hiff, hstatic, -⟩ := resolve_wrapped (alike_alone _ _) hargs hargs' rfl hsame [] 1
  refine ⟨rfl, hsame, hiff.2 fun _ v hv hnone => ?_, (hstatic _).2 hfold⟩
  rw [hfold] at hv
  cases hv
  cases hnone

end Example

end KeyTrace.Namespace
