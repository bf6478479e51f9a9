/-
Templates and the ends of their lines.

A line of a template may end in LF, CRLF or CR, and reads as if it ended in LF. Cooking
joins CRLF and nothing else: with CRLF in place of LF a template has the value that it
had, and with CR in place of LF it has just if every line end is escaped.
-/
import KeyTrace.Proofs.Literal.Cook
import KeyTrace.Proofs.Literal.Templates
import KeyTrace.Proofs.Syntax.Moves

namespace KeyTrace.Literal

/-- A text with other line ends in place of LF. -/
def withLineEnds (ending t : Text) : Text := t.flatMap fun c => if c = 10 then ending else [c]

/-- CR in place of LF. -/
def crFor (c : CodePoint) : CodePoint := if c = 10 then 13 else c

/-- What stands here is the end of a line. -/
def BeginsLineEnd (t : Text) : Prop := t.head? = some 10

variable {a t r : Text} {c : CodePoint}

theorem withLineEnds_cr (t : Text) : withLineEnds [13] t = t.map crFor := by
  have hone : (fun c : CodePoint => if c = 10 then [13] else [c]) = fun c => [crFor c] := by
    funext c
    unfold crFor
    split <;> rfl
  rw [withLineEnds, hone, List.map_eq_flatMap]

theorem beginsLineEnd_cons : BeginsLineEnd (c :: r) ↔ c = 10 := by
  rw [BeginsLineEnd, List.head?_cons, Option.some.injEq]

section Joined

theorem joinLineEnds_of_no_cr (h : 13 ∉ t) : joinLineEnds t = t := by
  have := joinLineEnds_append (u := []) fun x hx => (ne_of_mem_of_not_mem hx h : x ≠ 13)
  rwa [List.append_nil, show joinLineEnds [] = [] from rfl, List.append_nil] at this

theorem joinLineEnds_crlf (h : 13 ∉ t) : joinLineEnds (withLineEnds [13, 10] t) = t := by
  induction t with
  | nil => rfl
  | cons c t ih =>
    rw [List.mem_cons, not_or] at h
    rw [withLineEnds, List.flatMap_cons]
    by_cases hc : c = 10
    · subst hc
      exact congrArg (10 :: ·) (ih h.2)
    · rw [if_neg hc, List.singleton_append, joinLineEnds_cons fun hx => h.1 hx.1.symm]
      exact congrArg (c :: ·) (ih h.2)

theorem crFor_ne (c : CodePoint) : crFor c ≠ 10 := by
  unfold crFor
  split
  · decide
  · assumption

theorem head?_map_crFor (t : Text) : (t.map crFor).head? ≠ some 10 := by
  intro h
  obtain ⟨c, -, hc⟩ := List.mem_map.1 (List.mem_of_head? h)
  exact crFor_ne c hc

/-- There is nothing to join behind CR where no LF is left. -/
theorem joinLineEnds_map_crFor : ∀ t : Text, joinLineEnds (t.map crFor) = t.map crFor
  | [] => rfl
  | _ :: t => by
    rw [List.map_cons, joinLineEnds_cons fun h => head?_map_crFor t h.2, joinLineEnds_map_crFor t]

end Joined

section Escapes

theorem crFor_eq_iff {x : CodePoint} (h : x ≠ 10 ∧ x ≠ 13) : x = crFor c ↔ x = c := by
  unfold crFor
  split
  · next hc => exact iff_of_false h.2 (hc ▸ h.1)
  · rfl

theorem prefix_map_crFor : ∀ {a t : Text}, (∀ x ∈ a, x ≠ 10 ∧ x ≠ 13) → (a <+: t.map crFor ↔ a <+: t)
  | [], _, _ => iff_of_true List.nil_prefix List.nil_prefix
  | _ :: _, [], _ => Iff.rfl
  | x :: a, c :: t, h => by
    rw [List.map_cons, List.cons_prefix_cons, List.cons_prefix_cons,
      crFor_eq_iff (h x List.mem_cons_self), prefix_map_crFor fun y hy => h y (List.mem_cons_of_mem _ hy)]

theorem ne_lineEnd_of_isHexDigit {x : CodePoint} (h : isHexDigit x = true) : x ≠ 10 ∧ x ≠ 13 := by
  constructor <;> rintro rfl <;> cases h

theorem bracedDigits?_map_crFor (t : Text) : bracedDigits? (t.map crFor) = bracedDigits? t := by
  have hprefix (digits t : Text) : (∃ after, t = 123 :: digits ++ 125 :: after) ↔
      123 :: digits ++ [125] <+: t := by simp [List.prefix_iff_exists_eq_append]
  ext digits
  rw [bracedDigits?_eq_some_iff, bracedDigits?_eq_some_iff, hprefix, hprefix]
  refine and_congr_right fun _ => and_congr_right fun hhex => prefix_map_crFor fun x hx => ?_
  rw [List.mem_append, List.mem_cons, List.mem_singleton] at hx
  rcases hx with (rfl | hx) | rfl
  · decide
  · exact ne_lineEnd_of_isHexDigit (hhex x hx)
  · decide

theorem fixedDigits?_map_crFor (n : Nat) (t : Text) :
    fixedDigits? n (t.map crFor) = fixedDigits? n t := by
  ext digits
  rw [fixedDigits?_eq_some_iff, fixedDigits?_eq_some_iff]
  exact and_congr_right fun _ => and_congr_right fun hhex =>
    prefix_map_crFor fun x hx => ne_lineEnd_of_isHexDigit (hhex x hx)

theorem takeWhile_map_crFor : ∀ t : Text,
    (t.map crFor).takeWhile isOctalDigit = t.takeWhile isOctalDigit
  | [] => rfl
  | c :: t => by
    rw [List.map_cons, List.takeWhile_cons, List.takeWhile_cons, takeWhile_map_crFor t, crFor]
    split
    · next hc =>
      subst hc
      rfl
    · rfl

/-- An escape is what it was; a line break behind the backslash is passed over as LF was. -/
theorem readEscape_map_crFor (hc : c ≠ 13) (r : Text) :
    readEscape ((c :: r).map crFor) = readEscape (c :: r) := by
  rw [List.map_cons]
  by_cases hlf : c = 10
  · subst hlf
    have hcrlf : ¬ (decide (crFor 10 = 13) && decide ((r.map crFor).head? = some 10)) = true := by
      rw [Bool.and_eq_true, decide_eq_true_eq, decide_eq_true_eq]
      exact fun h => head?_map_crFor r h.2
    rw [readEscape, if_neg (by decide), if_neg (by decide), if_neg (by decide), if_neg hcrlf]
    rfl
  rw [show crFor c = c from if_neg hlf]
  by_cases ho : isOctalDigit c = true
  · rw [readEscape_octal ho, readEscape_octal ho, ← List.map_take, takeWhile_map_crFor]
  · simp only [readEscape, bracedDigits?_map_crFor, fixedDigits?_map_crFor, if_neg ho, hc,
      decide_false, Bool.false_and]

/-- Behind its first character an escape has no backslash and no line end, if there is no CR. -/
theorem meets_drop {e : Escape} {n : Nat} (hc : c ≠ 13) (he : readEscape (c :: r) = some (e, n + 1)) :
    Meets BeginsLineEnd (92 :: c :: r) ↔ Meets BeginsLineEnd (r.drop n) := by
  have htail : ∀ x ∈ r.take n, x ≠ 92 ∧ ∀ v, ¬ BeginsLineEnd (x :: v) := by
    intro x hx
    simp only [beginsLineEnd_cons]
    rcases (form_of_readEscape he).tail x hx with h | rfl | rfl | ⟨h, -⟩
    · exact ⟨ne_of_isHexDigit h, fun _ => (ne_lineEnd_of_isHexDigit h).1⟩
    · exact ⟨by decide, fun _ => by decide⟩
    · exact ⟨by decide, fun _ => by decide⟩
    · exact absurd h hc
  have := meets_append (u := r.drop n) htail
  rw [List.take_append_drop] at this
  rw [meets_escape, this]
  exact or_iff_right nofun

end Escapes

section Agreement

/-- Two computations fail alike, or come to results that are the same under a condition only. -/
def Agree {ε α : Type} (x y : Except ε α) (same : Prop) : Prop :=
  (∃ e, x = .error e ∧ y = .error e) ∨ ∃ a b, x = .ok a ∧ y = .ok b ∧ (b = a ↔ same)

variable {ε α : Type} {p q : Prop}

theorem Agree.eq {x y : Except ε α} (h : Agree x y p) (hp : p) : y = x := by
  obtain ⟨e, rfl, rfl⟩ | ⟨a, b, rfl, rfl, hab⟩ := h
  · rfl
  · rw [hab.2 hp]

theorem Agree.cons {x y : Except ε α} {xs ys : Except ε (List α)} (h : Agree x y p)
    (hs : Agree xs ys q) :
    Agree (do return (← x) :: (← xs)) (do return (← y) :: (← ys)) (p ∧ q) := by
  obtain ⟨e, rfl, rfl⟩ | ⟨a, b, rfl, rfl, hab⟩ := h
  · exact .inl ⟨e, rfl, rfl⟩
  obtain ⟨e, rfl, rfl⟩ | ⟨as, bs, rfl, rfl, habs⟩ := hs
  · exact .inl ⟨e, rfl, rfl⟩
  · exact .inr ⟨a :: as, b :: bs, rfl, rfl, by rw [List.cons.injEq, hab, habs]⟩

theorem Agree.append {xs ys : Except ε (List α)} (x : Except ε (List α)) (h : Agree xs ys q) :
    Agree (do return (← x) ++ (← xs)) (do return (← x) ++ (← ys)) q := by
  cases x with
  | error e => exact .inl ⟨e, rfl, rfl⟩
  | ok a =>
    obtain ⟨e, rfl, rfl⟩ | ⟨as, bs, rfl, rfl, habs⟩ := h
    · exact .inl ⟨e, rfl, rfl⟩
    · exact .inr ⟨a ++ as, a ++ bs, rfl, rfl, by rw [List.append_cancel_left_eq, habs]⟩

theorem Agree.mapM {β : Type} {f g : β → Except ε α} {p : β → Prop} : ∀ {l : List β},
    (∀ x ∈ l, Agree (f x) (g x) (p x)) → Agree (l.mapM f) (l.mapM g) (∀ x ∈ l, p x)
  | [], _ => .inr ⟨[], [], rfl, rfl, iff_of_true rfl nofun⟩
  | x :: l, h => by
    rw [List.mapM_cons, List.mapM_cons, List.forall_mem_cons]
    exact (h x List.mem_cons_self).cons (mapM fun y hy => h y (List.mem_cons_of_mem _ hy))

end Agreement

theorem crFor_eq_self_iff : crFor c = c ↔ c ≠ 10 := by
  constructor
  · rintro h rfl
    cases h
  · exact fun h => if_neg h

theorem crFor_ne_backslash (h : c ≠ 92) : crFor c ≠ 92 := by
  unfold crFor
  split
  · decide
  · exact h

/-- With CR in place of LF a text cannot be cooked where it could not, or comes to what it came to
just if every LF is escaped. -/
def KeepsValue (t : Text) : Prop := Agree (cook t) (cook (t.map crFor)) (¬ Meets BeginsLineEnd t)

theorem KeepsValue.character (hc : c ≠ 92) (h : KeepsValue r) : KeepsValue (c :: r) := by
  have hmeets : (¬ Meets BeginsLineEnd (c :: r)) = (crFor c = c ∧ ¬ Meets BeginsLineEnd r) := by
    rw [meets_cons hc, not_or, beginsLineEnd_cons, crFor_eq_self_iff]
  rw [KeepsValue, List.map_cons, cook_cons hc, cook_cons (crFor_ne_backslash hc), hmeets]
  exact .cons (.inr ⟨c, crFor c, rfl, rfl, Iff.rfl⟩) h

theorem KeepsValue.escape {e : Escape} {n : Nat} (hc : c ≠ 13)
    (he : readEscape (c :: r) = some (e, n + 1)) (h : KeepsValue (r.drop n)) :
    KeepsValue (92 :: c :: r) := by
  have he' : readEscape ((c :: r).map crFor) = some (e, n + 1) := (readEscape_map_crFor hc r).trans he
  rw [KeepsValue, meets_drop hc he, List.map_cons, show crFor 92 = 92 from rfl, cook_escape he,
    cook_escape he', ← List.map_drop, List.drop_succ_cons]
  exact .append _ h

theorem keepsValue : ∀ {t : Text}, 13 ∉ t → KeepsValue t
  | [], _ => .inr ⟨[], [], rfl, rfl, iff_of_true rfl (by rw [meets_nil]; nofun)⟩
  | [c], _ => by
    by_cases hc : c = 92
    · subst hc
      exact .inr ⟨[92], [92], rfl, rfl, iff_of_true rfl (by rw [meets_backslash]; nofun)⟩
    · exact .character hc (keepsValue nofun)
  | c :: d :: r, h => by
    obtain ⟨-, hr⟩ := not_or.1 (List.mem_cons.not.1 h)
    by_cases hc : c = 92
    · subst hc
      obtain ⟨hd, hr⟩ := not_or.1 (List.mem_cons.not.1 hr)
      obtain ⟨e, n, he, -, -⟩ := escapes d r
      exact .escape (Ne.symm hd) he (keepsValue fun hm => hr (List.mem_of_mem_drop hm))
    · exact .character hc (keepsValue hr)
termination_by t => t.length

namespace Template

variable {s s' : Source} {n n' : Node} {ending : Text}

/-- A template stands in another source with other line ends in its text, and with its substitutions
as they are. -/
structure Rewritten (ending : Text) (s : Source) (n : Node) (s' : Source) (n' : Node) : Prop where
  texts : rawTexts s' n' = (rawTexts s n).map (withLineEnds ending)
  substitutions : List.Forall₂ (Node.Copied s s')
    (n.allChildren.filter fun c => c.kind = .templateSubstitution)
    (n'.allChildren.filter fun c => c.kind = .templateSubstitution)

/-- CRLF reads as LF wherever it stands. -/
theorem Rewritten.quasis_crlf (h : Rewritten [13, 10] s n s' n')
    (hcr : ∀ t ∈ rawTexts s n, 13 ∉ t) : (ofNode s' n').map quasis = (ofNode s n).map quasis := by
  have hsame : ((rawTexts s n).map (withLineEnds [13, 10])).map joinLineEnds =
      (rawTexts s n).map joinLineEnds := by
    rw [List.map_map]
    exact List.map_congr_left fun t ht =>
      (joinLineEnds_crlf (hcr t ht)).trans (joinLineEnds_of_no_cr (hcr t ht)).symm
  rw [quasis_ofNode, quasis_ofNode, h.texts, show cookTemplate = cook ∘ joinLineEnds from rfl,
    ← List.mapM_map, ← List.mapM_map, hsame]

/-- CR reads as LF just where it is escaped. -/
theorem Rewritten.quasis_cr (h : Rewritten [13] s n s' n') (hcr : ∀ t ∈ rawTexts s n, 13 ∉ t) :
    Agree ((ofNode s n).map quasis) ((ofNode s' n').map quasis)
      (∀ t ∈ rawTexts s n, ¬ Meets BeginsLineEnd t) := by
  rw [quasis_ofNode, quasis_ofNode, h.texts, List.mapM_map]
  refine Agree.mapM fun t ht => ?_
  rw [cookTemplate, joinLineEnds_of_no_cr (hcr t ht)]
  have : (cookTemplate ∘ withLineEnds [13]) t = cook (t.map crFor) := by
    rw [Function.comp_apply, cookTemplate, withLineEnds_cr, joinLineEnds_map_crFor]
  rw [this]
  exact keepsValue (hcr t ht)

/-- What stands in the substitutions is kept. -/
theorem Rewritten.expressions (h : Rewritten ending s n s' n') {t t' : Template}
    (ht : ofNode s n = .ok t) (ht' : ofNode s' n' = .ok t') :
    List.Forall₂ (Option.Rel (Node.Copied s s')) t.expressions t'.expressions := by
  rw [expressions_ofNode ht, expressions_ofNode ht', Template.substitutions, Template.substitutions,
    List.forall₂_map_left_iff, List.forall₂_map_right_iff]
  exact h.substitutions.imp fun _ _ => Node.Copied.firstChild?

/-- **The quasis of a template depend on how its lines end just where CR stands for an LF that is not
escaped.** With CRLF for each LF they are what they were. With CR for each LF they cannot be cooked if
they could not before, and are what they were just if every LF is escaped. The substitutions are kept
with any line ends. -/
theorem ofNode_lineEnds (hcr : ∀ t ∈ rawTexts s n, 13 ∉ t) :
    (Rewritten [13, 10] s n s' n' → (ofNode s' n').map quasis = (ofNode s n).map quasis) ∧
    (Rewritten [13] s n s' n' → Agree ((ofNode s n).map quasis) ((ofNode s' n').map quasis)
      (∀ t ∈ rawTexts s n, ¬ Meets BeginsLineEnd t)) ∧
    ∀ ending t t', Rewritten ending s n s' n' → ofNode s n = .ok t → ofNode s' n' = .ok t' →
      List.Forall₂ (Option.Rel (Node.Copied s s')) t.expressions t'.expressions :=
  ⟨fun h => h.quasis_crlf hcr, fun h => h.quasis_cr hcr, fun _ _ _ h => h.expressions⟩

section Example

/-- The source of a text. -/
def sourceOf (t : Text) : Source := ⟨(Utf8.encode t).toArray⟩

/-- A template of three letters. -/
def threeLetters : Node :=
  .mk .none .templateString ⟨0, 5⟩ [.mk .none .stringFragment ⟨1, 4⟩ []]

/-- A line end between two letters is not the same if it is CR. -/
theorem ofNode_cr :
    let lf := sourceOf (text "`a\nb`")
    let cr := sourceOf (text "`a\rb`")
    Rewritten [13] lf threeLetters cr threeLetters ∧
    (∀ t ∈ rawTexts lf threeLetters, 13 ∉ t) ∧
    (ofNode lf threeLetters).map quasis = .ok [[97, 10, 98]] ∧
    (ofNode cr threeLetters).map quasis = .ok [[97, 13, 98]] := by
  intro lf cr
  have hlf : rawTexts lf threeLetters = [[97, 10, 98]] := by decide +kernel
  have hcr : rawTexts cr threeLetters = [[97, 13, 98]] := by decide +kernel
  refine ⟨⟨?_, .nil⟩, ?_, ?_, ?_⟩
  · rw [hlf, hcr]
    rfl
  · rw [hlf]
    decide
  · rw [quasis_ofNode, hlf]
    rfl
  · rw [quasis_ofNode, hcr]
    rfl

/-- The substitution of `x`, which starts at an offset. -/
def nameAt (k : Nat) : Node :=
  .mk .none .templateSubstitution ⟨k, k + 4⟩ [.mk .none .identifier ⟨k + 2, k + 3⟩ []]

/-- A template of an escaped line end and the substitution of `x` behind it. -/
def escapedAndName (k : Nat) : Node :=
  .mk .none .templateString ⟨0, k + 5⟩ [.mk .none .escapeSequence ⟨1, k⟩ [], nameAt k]

theorem copied_nameAt {s s' : Source} {a b : Nat}
    (hwhole : s'.slice ⟨b, b + 4⟩ = s.slice ⟨a, a + 4⟩)
    (hname : s'.slice ⟨b + 2, b + 3⟩ = s.slice ⟨a + 2, a + 3⟩) :
    Node.Copied s s' (nameAt a) (nameAt b) := by
  refine ⟨a, b, ?_, fun m hm => ?_⟩
  · simp [nameAt, Node.moved, Node.mapSpan, Node.mapSpanAll, Nat.add_comm _ b]
  · have hm : m = nameAt a ∨ m = .mk .none .identifier ⟨a + 2, a + 3⟩ [] := by
      simpa [nameAt, Node.preorder, Node.preorderAll] using hm
    rcases hm with rfl | rfl
    · refine ⟨Nat.le_refl a, ?_⟩
      simpa [nameAt, Node.moved, Node.text, Node.mapSpan, Node.span, Nat.add_comm _ b] using hwhole
    · refine ⟨Nat.le_add_right a 2, ?_⟩
      simpa [Node.moved, Node.text, Node.mapSpan, Node.span, Nat.add_comm _ b] using hname

/-- An escaped line end is passed over whatever it is. -/
theorem ofNode_escaped :
    let lf := sourceOf (text "`\\\n$\x7bx\x7d`")
    let crlf := sourceOf (text "`\\\r\n$\x7bx\x7d`")
    let cr := sourceOf (text "`\\\r$\x7bx\x7d`")
    (∀ t ∈ rawTexts lf (escapedAndName 3), 13 ∉ t) ∧
    Rewritten [13, 10] lf (escapedAndName 3) crlf (escapedAndName 4) ∧
    Rewritten [13] lf (escapedAndName 3) cr (escapedAndName 3) ∧
    (ofNode lf (escapedAndName 3)).map quasis = .ok [[], []] ∧
    (ofNode crlf (escapedAndName 4)).map quasis = .ok [[], []] ∧
    (ofNode cr (escapedAndName 3)).map quasis = .ok [[], []] := by
  intro lf crlf cr
  have hlf : rawTexts lf (escapedAndName 3) = [[92, 10], []] := by decide +kernel
  have hcrlf : rawTexts crlf (escapedAndName 4) = [[92, 13, 10], []] := by decide +kernel
  have hcr : rawTexts cr (escapedAndName 3) = [[92, 13], []] := by decide +kernel
  have hquasis : (ofNode lf (escapedAndName 3)).map quasis = .ok [[], []] := by
    rw [quasis_ofNode, hlf]
    rfl
  have hno : ∀ t ∈ rawTexts lf (escapedAndName 3), 13 ∉ t := by
    rw [hlf]
    decide
  have hescaped : ∀ t ∈ rawTexts lf (escapedAndName 3), ¬ Meets BeginsLineEnd t := by
    rw [hlf, List.forall_mem_cons, List.forall_mem_singleton, meets_escape, meets_nil,
      beginsLineEnd_cons]
    exact ⟨by simp [BeginsLineEnd], nofun⟩
  have hwide : Rewritten [13, 10] lf (escapedAndName 3) crlf (escapedAndName 4) := by
    refine ⟨by rw [hlf, hcrlf]; rfl, .cons (copied_nameAt ?_ ?_) .nil⟩ <;> decide +kernel
  have hnarrow : Rewritten [13] lf (escapedAndName 3) cr (escapedAndName 3) := by
    refine ⟨by rw [hlf, hcr]; rfl, .cons (copied_nameAt ?_ ?_) .nil⟩ <;> decide +kernel
  have hsame := (ofNode_lineEnds hno).1 hwide
  have hagree := (ofNode_lineEnds hno).2.1 hnarrow
  exact ⟨hno, hwide, hnarrow, hquasis, hsame.trans hquasis, (hagree.eq hescaped).trans hquasis⟩

end Example

end Template

end KeyTrace.Literal
