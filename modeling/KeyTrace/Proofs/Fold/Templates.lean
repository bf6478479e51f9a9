/-
Templates folded from their parts.

A template folds to its cooked raw texts with the strings that its expressions fold to between them,
and it is dynamic as soon as an expression folds to no string, whatever is behind that
(`foldTemplate_split`).
-/
import KeyTrace.Proofs.Fold.Derivations
import KeyTrace.Proofs.Literal.LineEnds
import KeyTrace.Proofs.Literal.Splitting

namespace KeyTrace

namespace Literal.Template

variable {s : Source} {n : Node} {t : Template} {values : List Text}

theorem weave_eq_zipWith : ∀ {l : List (Option Node × Text)} {values : List Text} (first : Text),
    l.length = values.length → weave (first :: l.map (·.2)) values =
      first ++ (List.zipWith (fun part value => value ++ part.2) l values).flatten
  | [], [], first, _ => (List.append_nil first).symm
  | (e, q) :: l, v :: values, first, h => by
    rw [List.map_cons, weave, weave_eq_zipWith q (Nat.succ.inj h), List.zipWith_cons_cons,
      List.flatten_cons, List.append_assoc, List.append_assoc]

theorem fill_eq_weave (h : t.expressions.length = values.length) :
    t.fill values = weave t.quasis values :=
  (weave_eq_zipWith t.first (by rwa [expressions, List.length_map] at h)).symm

/-- The quasis of a template are read from the spans between its substitutions. -/
theorem quasis_eq (s : Source) (n : Node) :
    (ofNode s n).map quasis = (n.rawSpans.map s.slice).mapM cookTemplate := by
  rw [quasis_ofNode, rawTexts, Node.gaps_eq]
  rfl

theorem forall₂_quasis (h : ofNode s n = .ok t) :
    List.Forall₂ (fun r q => cookTemplate (s.slice r) = .ok q) n.rawSpans t.quasis := by
  have hquasis := quasis_eq s n
  rw [h] at hquasis
  exact List.forall₂_map_left_iff.1 (mapM_ok_iff.1 hquasis.symm)

end Literal.Template

namespace Fold

open Literal Template

variable {source : Source} {constant : Option Node → Traced Folded} {n : Node} {t : Template}

/-- Of some expressions one folds to no string, and all that are before it do. -/
inductive Breaks (constant : Option Node → Traced Folded) : List (Option Node) → Prop
  | here {e : Option Node} {es : List (Option Node)} {v : Folded} :
      (constant e).outcome = .ok v → (∀ w, v ≠ .string w) → Breaks constant (e :: es)
  | later {e : Option Node} {es : List (Option Node)} {w : Text} :
      (constant e).outcome = .ok (.string w) → Breaks constant es → Breaks constant (e :: es)

theorem joinTemplate_eq_none_iff {l : List (Option Node × Text)} {soFar : Text} :
    (joinTemplate constant soFar l).outcome = .ok none ↔ Breaks constant (l.map (·.1)) := by
  induction l generalizing soFar with
  | nil => exact iff_of_false (fun h => by cases h) fun h => by cases h
  | cons part l ih =>
    rw [joinTemplate, Traced.bind_ok_iff]
    constructor
    · rintro ⟨v, hv, h⟩
      cases v with
      | string w => exact .later hv (ih.1 h)
      | dynamic | strings | records => exact .here hv fun w hw => by cases hw
    · intro h
      cases h with
      | @here _ _ v hv hne =>
        refine ⟨v, hv, ?_⟩
        cases v with
        | string w => exact absurd rfl (hne w)
        | dynamic | strings | records => rfl
      | later hv h => exact ⟨_, hv, ih.2 h⟩

theorem foldTemplate_some_iff (ht : ofNode source n = .ok t) {v : Text} :
    (foldTemplate source constant n).outcome = .ok (some v) ↔
      ∃ values, List.Forall₂ (fun e w => (constant e).outcome = .ok (.string w))
        t.expressions values ∧ v = weave t.quasis values := by
  rw [foldTemplate_eq_some_iff]
  constructor
  · rintro ⟨t', values, ht', hvalues, rfl⟩
    obtain rfl : t = t' := Except.ok.inj (ht.symm.trans ht')
    exact ⟨values, hvalues, fill_eq_weave hvalues.length_eq⟩
  · rintro ⟨values, hvalues, rfl⟩
    exact ⟨t, values, ht, hvalues, (fill_eq_weave hvalues.length_eq).symm⟩

theorem foldTemplate_none_iff (ht : ofNode source n = .ok t) :
    (foldTemplate source constant n).outcome = .ok none ↔ Breaks constant t.expressions := by
  rw [foldTemplate, Traced.bind_of_ok (Traced.ofCooked_ok_iff.2 ht)]
  exact joinTemplate_eq_none_iff

/-- **Templates are split without loss.** A template between backticks, with its substitutions in
order inside, is its raw texts and its substitutions in turn, byte for byte, and character for
character if it is cut at characters. Its quasis are the raw texts, each cooked with CRLF read as LF,
and there are none if one does not cook; its expressions are the first things in the substitutions
that are no comments. It folds to the quasis with strings between them, if that is what the
expressions fold to, and to nothing from the first one on that does not. In a program that has been
read every template is like that, and has its parts. -/
theorem foldTemplate_split :
    (∀ (ctx : Context) (n : Node), Backticked ctx.source n →
      ctx.source.bytesIn n.span = 96 :: weave (n.rawSpans.map ctx.source.bytesIn)
        (n.holes.map fun c => ctx.source.bytesIn c.span) ++ [96] ∧
      (CutAtCharacters ctx.source n → n.text ctx.source =
        96 :: weave (n.rawSpans.map ctx.source.slice) (n.holes.map (·.text ctx.source)) ++ [96]) ∧
      (ofNode ctx.source n).map quasis = (n.rawSpans.map ctx.source.slice).mapM cookTemplate ∧
      ∀ t, ofNode ctx.source n = .ok t →
        t.quasis.length = n.holes.length + 1 ∧
        List.Forall₂ (fun r q => cook (joinLineEnds (ctx.source.slice r)) = .ok q)
          n.rawSpans t.quasis ∧
        t.expressions = n.holes.map Node.firstChild? ∧
        ∀ depth,
          (∀ v, (foldTemplate ctx.source (Fold.constant ctx (depth + 1)) n).outcome = .ok (some v) ↔
            ∃ values, List.Forall₂
              (fun e w => (Fold.constant ctx (depth + 1) e).outcome = .ok (.string w))
              t.expressions values ∧ v = weave t.quasis values) ∧
          ((foldTemplate ctx.source (Fold.constant ctx (depth + 1)) n).outcome = .ok none ↔
            Breaks (Fold.constant ctx (depth + 1)) t.expressions)) ∧
    ∀ doc gs p, (Program.read doc gs).outcome = .ok (some p) →
      ∀ n ∈ p.root.preorder, n.kind = .templateString →
        Backticked p.source n ∧ CutAtCharacters p.source n ∧ ∃ t, ofNode p.source n = .ok t := by
  refine ⟨fun ctx n h => ⟨h.bytesIn_eq, h.text_eq, quasis_eq ctx.source n, fun t ht => ?_⟩,
    fun doc gs p hp n hn hk => ?_⟩
  · have hquasis := forall₂_quasis ht
    exact ⟨hquasis.length_eq.symm.trans n.length_rawSpans, hquasis, expressions_ofNode ht,
      fun depth => ⟨fun v => foldTemplate_some_iff ht, foldTemplate_none_iff ht⟩⟩
  · obtain ⟨hb, hc⟩ := Program.backticked_of_read hp hn hk
    exact ⟨hb, hc, (Program.legal_of_read hp n hn).template hk⟩

section Example

/-- A substitution of a string, by its first and its last offset. -/
def stringHole (a b : Nat) : Node :=
  .mk .none .templateSubstitution ⟨a, b⟩ [.mk .none .string ⟨a + 2, b - 1⟩ []]

/-- A template behind a wide character: a line end, two substitutions side by side, and a letter. -/
def sideBySide : Node :=
  .mk .none .templateString ⟨2, 20⟩
    [.mk .none .stringFragment ⟨3, 5⟩ [], stringHole 5 12, stringHole 12 18,
      .mk .none .stringFragment ⟨18, 19⟩ []]

/-- There is an empty raw text between two substitutions that touch. -/
theorem foldTemplate_split_sideBySide :
    let ctx : Context := .alone (sourceOf (text "é`\r\n$\x7b'ü'\x7d$\x7b'b'\x7dx`"))
    Backticked ctx.source sideBySide ∧
    sideBySide.text ctx.source = 96 :: weave [[13, 10], [], [120]]
      [text "$\x7b'ü'\x7d", text "$\x7b'b'\x7d"] ++ [96] ∧
    (ofNode ctx.source sideBySide).map quasis = .ok [[10], [], [120]] ∧
    (foldTemplate ctx.source (Fold.constant ctx 1) sideBySide).outcome =
      .ok (some (text "\nübx")) := by
  intro ctx
  have hb : Backticked ctx.source sideBySide := ⟨rfl, rfl, by decide⟩
  have hcut : CutAtCharacters ctx.source sideBySide := by decide +kernel
  have hraw : sideBySide.rawSpans.map ctx.source.slice = [[13, 10], [], [120]] := by decide +kernel
  have hholes : sideBySide.holes.map (·.text ctx.source) =
      [text "$\x7b'ü'\x7d", text "$\x7b'b'\x7d"] := by decide +kernel
  obtain ⟨-, htext, hquasis, hparts⟩ := foldTemplate_split.1 ctx sideBySide hb
  rw [hraw] at hquasis
  obtain ⟨t, ht, hq⟩ : ∃ t, ofNode ctx.source sideBySide = .ok t ∧ t.quasis = [[10], [], [120]] := by
    cases ht : ofNode ctx.source sideBySide with
    | error e =>
      rw [ht] at hquasis
      cases hquasis
    | ok t =>
      rw [ht] at hquasis
      exact ⟨t, rfl, Except.ok.inj hquasis⟩
  obtain ⟨-, -, hexpressions, hfold⟩ := hparts t ht
  refine ⟨hb, ?_, hquasis, ?_⟩
  · rw [htext hcut, hraw, hholes]
  · refine ((hfold 0).1 _).2 ⟨[text "ü", text "b"], ?_, ?_⟩
    · rw [hexpressions]
      exact .cons (by decide +kernel) (.cons (by decide +kernel) .nil)
    · rw [hq]
      decide

end Example

end Fold

end KeyTrace
