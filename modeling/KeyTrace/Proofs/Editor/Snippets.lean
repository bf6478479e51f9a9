/-
The snippets for a key path: one in markup and one in code for each of its endings.

The endings are the texts behind a dot and the key path itself, from the shortest to the longest
(`snippets_endings`). A snippet puts its ending between quotes as it is. So it looks the ending up
just if nothing in that means something else in a literal (`snippets_denote`).
-/
import KeyTrace.Editor.KeyPath
import KeyTrace.Proofs.Literal.Verbatim
import KeyTrace.Proofs.Text.Pieces
import Mathlib.Logic.ExistsUnique

namespace KeyTrace.KeyPath

open Text Literal

variable {segments : List Text} {key body rest : Text} {i j : Nat}

/-- The last segments of a key path: one of them for zero, and one more for every number after. -/
def ending (segments : List Text) (i : Nat) : Text :=
  join dot (segments.drop (segments.length - (i + 1)))

section Endings

theorem length_endingsOf : ∀ ps : List Text, (endingsOf ps).length = ps.length
  | [] => rfl
  | _ :: ps => by rw [endingsOf, List.length_append, length_endingsOf ps, List.length_singleton,
      List.length_cons]

theorem getElem?_endingsOf : ∀ {ps : List Text} {i : Nat}, i < ps.length →
    (endingsOf ps)[i]? = some (ending ps i)
  | p :: ps, i, hi => by
    have hlen := length_endingsOf ps
    rw [List.length_cons] at hi
    rw [endingsOf, ending, List.length_cons]
    by_cases h : i < ps.length
    · have hdrop : ps.length + 1 - (i + 1) = ps.length - (i + 1) + 1 := by omega
      rw [List.getElem?_append_left (by rw [hlen]; exact h), getElem?_endingsOf h, hdrop,
        List.drop_succ_cons]
      rfl
    · have hi : i = ps.length := by omega
      rw [List.getElem?_append_right (by rw [hlen]; omega), hlen, hi, Nat.sub_self, Nat.sub_self]
      rfl

theorem ending_append (hij : i < j) (hj : j < segments.length) :
    ∃ front, ending segments j = front ++ dot ++ ending segments i := by
  have hsplit : segments.drop (segments.length - (j + 1)) =
      (segments.drop (segments.length - (j + 1))).take (j - i) ++
        segments.drop (segments.length - (i + 1)) := by
    conv_lhs => rw [← List.take_append_drop (j - i) (segments.drop (segments.length - (j + 1)))]
    rw [List.drop_drop]
    congr 2
    omega
  have hfront : (segments.drop (segments.length - (j + 1))).take (j - i) ≠ [] :=
    List.ne_nil_of_length_pos (by rw [List.length_take, List.length_drop]; omega)
  have hrest : segments.drop (segments.length - (i + 1)) ≠ [] :=
    List.ne_nil_of_length_pos (by rw [List.length_drop]; omega)
  rw [ending, hsplit]
  exact ⟨_, join_append hrest hfront⟩

theorem length_ending_lt (hij : i < j) (hj : j < segments.length) :
    (ending segments i).length < (ending segments j).length := by
  obtain ⟨front, h⟩ := ending_append hij hj
  rw [h, List.length_append, List.length_append, dot, List.length_singleton]
  omega

theorem ending_injective (hi : i < segments.length) (hj : j < segments.length)
    (h : ending segments i = ending segments j) : i = j := by
  rcases Nat.lt_trichotomy i j with hij | hij | hij
  · exact absurd (congrArg List.length h) (Nat.ne_of_lt (length_ending_lt hij hj))
  · exact hij
  · exact absurd (congrArg List.length h).symm (Nat.ne_of_lt (length_ending_lt hij hi))

theorem ending_last (hs : segments ≠ []) : ending segments (segments.length - 1) = join dot segments := by
  have hpos := List.length_pos_iff.2 hs
  rw [ending, Nat.sub_add_cancel hpos, Nat.sub_self, List.drop_zero]

theorem ending_suffix (hi : i < segments.length) : ending segments i <:+ join dot segments := by
  have hs := List.ne_nil_of_length_pos (Nat.lt_of_le_of_lt (Nat.zero_le i) hi)
  rw [← ending_last hs]
  rcases Nat.lt_or_eq_of_le (Nat.le_sub_one_of_lt hi) with hlt | rfl
  · obtain ⟨front, h⟩ := ending_append hlt (Nat.sub_lt (List.length_pos_iff.2 hs) Nat.one_pos)
    exact ⟨front ++ dot, h.symm⟩
  · exact List.suffix_refl _

theorem ending_behind (front rest : Text) :
    (splitOn dot rest).length < (splitOn dot (front ++ dot ++ rest)).length ∧
      ending (splitOn dot (front ++ dot ++ rest)) ((splitOn dot rest).length - 1) = rest := by
  have hdot : dot ≠ [] := List.cons_ne_nil _ _
  have hsplit : splitOn dot (front ++ dot ++ rest) = splitOn dot front ++ splitOn dot rest :=
    splitOn_append hdot rest (cutAfter_singleton _ front)
  have hfront := List.length_pos_iff.2 (splitOn_ne_nil dot front)
  have hrest := List.length_pos_iff.2 (splitOn_ne_nil dot rest)
  rw [hsplit, List.length_append]
  refine ⟨by omega, ?_⟩
  rw [ending, List.length_append, Nat.sub_add_cancel hrest, Nat.add_sub_cancel, List.drop_left,
    join_splitOn hdot]

end Endings

section Snippets

theorem length_snippets (keypath : Text) :
    (snippets keypath).length = 2 * (splitOn dot keypath).length := by
  rw [snippets, List.length_append, List.length_map, List.length_map, endings, length_endingsOf,
    Nat.two_mul]

/-- The snippets for markup come first, then those for code. -/
theorem getElem?_snippets {keypath : Text} (hi : i < (splitOn dot keypath).length) :
    (snippets keypath)[i]? =
        some ([cp '\x7b'] ++ lookupCall (ending (splitOn dot keypath) i) ++ [cp '\x7d']) ∧
      (snippets keypath)[(splitOn dot keypath).length + i]? =
        some (lookupCall (ending (splitOn dot keypath) i)) := by
  have hlen := length_endingsOf (splitOn dot keypath)
  have hget : (endings keypath)[i]? = some (ending (splitOn dot keypath) i) := getElem?_endingsOf hi
  constructor
  · rw [snippets, List.getElem?_append_left (by simpa [endings, hlen] using hi), List.getElem?_map, hget]
    rfl
  · rw [snippets, List.getElem?_append_right (by simp [endings, hlen]), List.length_map, endings, hlen,
      Nat.add_sub_cancel_left, List.getElem?_map]
    exact congrArg (Option.map lookupCall) hget

/-- **The snippets of a key path list its endings**, twice: first for markup, then for code. The
endings are the key path and all that stands behind a dot of it, each of them once, the shorter ones
first. -/
theorem snippets_endings (keypath : Text) :
    let segments := splitOn dot keypath
    (join dot segments = keypath ∧ ∀ p ∈ segments, cp '.' ∉ p) ∧
    (snippets keypath).length = 2 * segments.length ∧
    (∀ i < segments.length,
      (snippets keypath)[i]? = some ([cp '\x7b'] ++ lookupCall (ending segments i) ++ [cp '\x7d']) ∧
      (snippets keypath)[segments.length + i]? = some (lookupCall (ending segments i))) ∧
    (∀ rest, (rest = keypath ∨ ∃ front, keypath = front ++ dot ++ rest) ↔
      ∃! i, i < segments.length ∧ ending segments i = rest) ∧
    (∀ i j, i < j → j < segments.length →
      (ending segments i).length < (ending segments j).length) ∧
    ending segments (segments.length - 1) = keypath := by
  intro segments
  have hjoin : join dot segments = keypath := join_splitOn (List.cons_ne_nil _ _) keypath
  have hne : segments ≠ [] := splitOn_ne_nil dot keypath
  have hlast : ending segments (segments.length - 1) = keypath := (ending_last hne).trans hjoin
  have hpos := List.length_pos_iff.2 hne
  refine ⟨⟨hjoin, fun p hp => not_mem_of_mem_splitOn hp⟩, length_snippets keypath,
    fun i hi => getElem?_snippets hi, fun rest => ⟨fun h => ?_, ?_⟩,
    fun i j hij hj => length_ending_lt hij hj, hlast⟩
  · have hex : ∃ i, i < segments.length ∧ ending segments i = rest := by
      rcases h with rfl | ⟨front, rfl⟩
      · exact ⟨_, Nat.sub_lt hpos Nat.one_pos, hlast⟩
      · obtain ⟨hlt, h⟩ := ending_behind front rest
        exact ⟨_, Nat.lt_of_le_of_lt (Nat.sub_le _ _) hlt, h⟩
    obtain ⟨i, hi, rfl⟩ := hex
    exact ⟨i, ⟨hi, rfl⟩, fun j ⟨hj, h⟩ => ending_injective hj hi h⟩
  · rintro ⟨i, ⟨hi, rfl⟩, -⟩
    rcases Nat.lt_or_eq_of_le (Nat.le_sub_one_of_lt hi) with hlt | rfl
    · obtain ⟨front, h⟩ := ending_append hlt (Nat.sub_lt hpos Nat.one_pos)
      exact .inr ⟨front, hlast.symm.trans h⟩
    · exact .inl hlast

/-- Empty segments count as well. -/
example : snippets (text "a..b") = ["\x7bt('b')\x7d", "\x7bt('.b')\x7d", "\x7bt('a..b')\x7d",
    "t('b')", "t('.b')", "t('a..b')"].map text := by decide

end Snippets

section Denoting

/-- The argument of a call of `t` begins with a literal in single quotes: what stands between the
quotes, and what is behind the second one. -/
structure QuotedArgument (call body rest : Text) : Prop where
  eq : call = text "t('" ++ body ++ 39 :: rest
  characters : ∃ units, StringCharacters 39 body units

/-- A call of `t` whose argument is one literal in single quotes, with a key as its value. -/
def Denotes (call key : Text) : Prop :=
  ∃ body, QuotedArgument call body (text ")") ∧ cook body = .ok key

theorem denotes_lookupCall (h : Verbatim 39 key) : Denotes (lookupCall key) key :=
  ⟨key, ⟨rfl, _, h.stringCharacters⟩, h.cook_eq⟩

/-- A literal in the place of the argument that has the key as its value is the key in quotes. -/
theorem verbatim_of_argument (h : QuotedArgument (lookupCall key) body rest)
    (hc : cook body = .ok key) : Verbatim 39 key := by
  obtain ⟨heq, units, hunits⟩ := h
  have heq : key ++ text "')" = body ++ 39 :: rest := by
    simpa only [lookupCall, List.append_assoc, List.append_cancel_left_eq] using heq
  rcases cook_shortens hc with hlt | ⟨rfl, hb⟩
  · -- the literal would go on to the last character of the call, which is no quote
    have hlen := congrArg List.length heq
    rw [List.length_append, List.length_append, List.length_cons] at hlen
    have hlen : key.length + 2 = body.length + (rest.length + 1) := hlen
    obtain rfl : rest = [] := List.length_eq_zero_iff.1 (by omega)
    have hlast := congrArg List.getLast? heq
    rw [List.getLast?_append_of_ne_nil _ (by decide), List.getLast?_concat] at hlast
    cases hlast
  · exact hunits.verbatim hb

theorem denotes_lookupCall_iff : Denotes (lookupCall key) key ↔ Verbatim 39 key :=
  ⟨fun ⟨_, h, hc⟩ => verbatim_of_argument h hc, denotes_lookupCall⟩

/-- **A snippet looks up the ending that it is made of just when** there is no single quote in that, no
backslash, no LF and no CR; if there is, then no literal in the place of its argument has the ending
as its value. So all snippets of a key path do what they are for just when it has none of the
four. -/
theorem snippets_denote (keypath : Text) :
    let segments := splitOn dot keypath
    (∀ i < segments.length,
      (snippets keypath)[i]? = some ([cp '\x7b'] ++ lookupCall (ending segments i) ++ [cp '\x7d']) ∧
      (snippets keypath)[segments.length + i]? = some (lookupCall (ending segments i)) ∧
      (Denotes (lookupCall (ending segments i)) (ending segments i) ↔
        Verbatim 39 (ending segments i)) ∧
      ∀ body rest, QuotedArgument (lookupCall (ending segments i)) body rest →
        cook body = .ok (ending segments i) → Verbatim 39 (ending segments i)) ∧
    ((∀ i < segments.length, Denotes (lookupCall (ending segments i)) (ending segments i)) ↔
      Verbatim 39 keypath) := by
  intro segments
  have hjoin : join dot segments = keypath := join_splitOn (List.cons_ne_nil _ _) keypath
  have hne : segments ≠ [] := splitOn_ne_nil dot keypath
  refine ⟨fun i hi => ⟨(getElem?_snippets hi).1, (getElem?_snippets hi).2, denotes_lookupCall_iff,
    fun body rest => verbatim_of_argument⟩, fun h => ?_, fun h i hi => denotes_lookupCall fun c hc => ?_⟩
  · have hlast := h _ (Nat.sub_lt (List.length_pos_iff.2 hne) Nat.one_pos)
    rw [ending_last hne, hjoin] at hlast
    exact denotes_lookupCall_iff.1 hlast
  · have hsuffix := ending_suffix hi
    rw [hjoin] at hsuffix
    exact h c (hsuffix.subset hc)

/-- A quote in a key path ends the literal in both of its snippets. -/
theorem snippets_quote :
    snippets (text "it's") = ["\x7bt('it's')\x7d", "t('it's')"].map text ∧
      ¬ Denotes (text "t('it's')") (text "it's") := by
  have hsnippet : text "t('it's')" = lookupCall (text "it's") := rfl
  refine ⟨by decide, ?_⟩
  rw [hsnippet, denotes_lookupCall_iff]
  decide

end Denoting

end KeyTrace.KeyPath
