/-
Templates cut at their substitutions.

Between its backticks a template is raw text and substitutions in turn, and nothing is lost: put
together again they are all of it, byte for byte (`Backticked.bytesIn_eq`), and character for
character where no cut is inside a character (`Backticked.text_eq`). Every template of a program that
has been read is like that (`Program.backticked_of_read`).
-/
import KeyTrace.Proofs.Grammar.Programs
import KeyTrace.Proofs.Literal.Templates

namespace KeyTrace

/-- Lists in turn: one of the second between any two of the first. -/
def weave {α : Type} : List (List α) → List (List α) → List α
  | g :: gs, b :: bs => g ++ b ++ weave gs bs
  | g :: _, [] => g
  | [], _ => []

namespace Span

/-- Spans lie one behind the other between two positions. -/
def InOrder : (a : Nat) → List Span → (b : Nat) → Prop
  | a, [], b => a ≤ b
  | a, c :: cs, b => a ≤ c.start ∧ c.start ≤ c.stop ∧ InOrder c.stop cs b

/-- What some spans leave between two positions: the spans before, between and behind them. -/
def gaps : (a : Nat) → List Span → (b : Nat) → List Span
  | a, [], b => [⟨a, b⟩]
  | a, c :: cs, b => ⟨a, c.start⟩ :: gaps c.stop cs b

instance InOrder.decidable (b : Nat) : ∀ (cs : List Span) (a : Nat), Decidable (InOrder a cs b)
  | [], a => inferInstanceAs (Decidable (a ≤ b))
  | c :: cs, a =>
    have := decidable b cs c.stop
    inferInstanceAs (Decidable (a ≤ c.start ∧ c.start ≤ c.stop ∧ InOrder c.stop cs b))

theorem length_gaps (b : Nat) : ∀ (a : Nat) (cs : List Span), (gaps a cs b).length = cs.length + 1
  | _, [] => rfl
  | _, _ :: cs => congrArg Nat.succ (length_gaps b _ cs)

theorem InOrder.le {b : Nat} : ∀ {cs : List Span} {a : Nat}, InOrder a cs b → a ≤ b
  | [], _, h => h
  | _ :: _, _, h => Nat.le_trans h.1 (Nat.le_trans h.2.1 h.2.2.le)

theorem InOrder.mono {a a' b : Nat} (ha : a' ≤ a) : ∀ {cs : List Span},
    InOrder a cs b → InOrder a' cs b
  | [], h => Nat.le_trans ha h
  | _ :: _, h => ⟨Nat.le_trans ha h.1, h.2⟩

theorem InOrder.mem_le {b : Nat} : ∀ {cs : List Span} {a : Nat}, InOrder a cs b →
    ∀ c ∈ cs, c.start ≤ b ∧ c.stop ≤ b
  | d :: cs, _, h, c, hc => by
    have hstop := h.2.2.le
    rcases List.mem_cons.1 hc with rfl | hc
    · exact ⟨Nat.le_trans h.2.1 hstop, hstop⟩
    · exact h.2.2.mem_le c hc

variable {α : Type} {f : Span → List α} {P : Nat → Prop}

/-- What is read from a span is what is read from its two parts, if it is cut at one of some
positions. -/
def Additive (f : Span → List α) (P : Nat → Prop) : Prop :=
  ∀ {a b c : Nat}, P a → P b → P c → a ≤ b → b ≤ c → f ⟨a, b⟩ ++ f ⟨b, c⟩ = f ⟨a, c⟩

/-- Spans and the gaps between them, in turn, are all that there is. -/
theorem weave_gaps (hf : Additive f P) {b : Nat} (hb : P b) : ∀ {cs : List Span} {a : Nat},
    InOrder a cs b → P a → (∀ c ∈ cs, P c.start ∧ P c.stop) →
    weave ((gaps a cs b).map f) (cs.map f) = f ⟨a, b⟩
  | [], _, _, _, _ => rfl
  | c :: cs, a, h, ha, hp => by
    obtain ⟨hstart, hstop⟩ := hp c List.mem_cons_self
    have hcb := h.2.2.le
    rw [gaps, List.map_cons, List.map_cons, weave,
      weave_gaps hf hb h.2.2 hstop fun d hd => hp d (List.mem_cons_of_mem c hd), List.append_assoc,
      hf hstart hstop hb h.2.1 hcb, hf ha hstart hb h.1 (Nat.le_trans h.2.1 hcb)]

end Span

namespace Source

variable {s : Source} {a b k : Nat}

/-- The bytes of a span. -/
def bytesIn (s : Source) (span : Span) : List UInt8 := (s.bytes.extract span.start span.stop).toList

/-- A character starts here, or the source ends. -/
def IsBoundary (s : Source) (k : Nat) : Prop := ∃ a ≤ s.length, s.offset a = k

instance (s : Source) (k : Nat) : Decidable (s.IsBoundary k) :=
  inferInstanceAs (Decidable (∃ a, a ≤ s.length ∧ s.offset a = k))

theorem additive_bytesIn (s : Source) : Span.Additive s.bytesIn fun _ => True := by
  intro a b c _ _ _ hab hbc
  rw [bytesIn, bytesIn, ← Array.toList_append, Array.extract_append_extract, Nat.min_eq_left hab,
    Nat.max_eq_right hbc]
  rfl

theorem le_of_offset_le (ha : a ≤ s.length) (h : s.offset a ≤ s.offset b) : a ≤ b :=
  Nat.le_of_not_lt fun hlt => Nat.not_lt.2 h (Utf8.offset_lt hlt ha)

theorem additive_slice (s : Source) : Span.Additive s.slice s.IsBoundary := by
  rintro _ _ _ ⟨a, ha, rfl⟩ ⟨b, hb, rfl⟩ ⟨c, -, rfl⟩ hab hbc
  have hab := le_of_offset_le ha hab
  have hbc := le_of_offset_le hb hbc
  calc s.slice (s.stretch a b) ++ s.slice (s.stretch b c)
      = s.text.between a b ++ s.text.between b c := by rw [slice_stretch hab, slice_stretch hbc]
    _ = s.text.between a c := (Text.between_append hab hbc).symm
    _ = s.slice (s.stretch a c) := (slice_stretch (Nat.le_trans hab hbc)).symm

theorem bytesIn_succ {x : UInt8} (h : s.bytes[k]? = some x) : s.bytesIn ⟨k, k + 1⟩ = [x] := by
  obtain ⟨hk, rfl⟩ := Array.getElem?_eq_some_iff.1 h
  rw [bytesIn, Array.toList_extract, List.extract_eq_take_drop, Nat.add_sub_cancel_left,
    List.drop_eq_getElem_cons (by simpa using hk)]
  simp

end Source

namespace Node

/-- Those of some nodes that are substitutions. -/
def holesOf (l : List Node) : List Node := l.filter fun c => c.kind = .templateSubstitution

/-- The substitutions of a template. -/
def holes (n : Node) : List Node := holesOf n.allChildren

/-- What is between the two backticks of a template. -/
def inside (n : Node) : Span := ⟨n.span.start + 1, n.span.stop - 1⟩

/-- The raw text of a template before, between and behind its substitutions. -/
def rawSpans (n : Node) : List Span :=
  Span.gaps n.inside.start (n.holes.map Node.span) n.inside.stop

theorem length_rawSpans (n : Node) : n.rawSpans.length = n.holes.length + 1 := by
  rw [rawSpans, Span.length_gaps, List.length_map]

theorem gaps_eq (s : Source) (stop : Nat) : ∀ (l : List Node) (cursor : Nat),
    gaps s stop cursor l = (Span.gaps cursor ((holesOf l).map Node.span) stop).map s.slice
  | [], _ => rfl
  | c :: l, cursor => by
    rw [gaps, holesOf, List.filter_cons]
    by_cases hk : c.kind = .templateSubstitution
    · rw [if_pos hk, if_pos (by simpa using hk), gaps_eq s stop l]
      rfl
    · rw [if_neg hk, if_neg (by simpa using hk), gaps_eq s stop l, holesOf]

end Node

namespace Literal

open Source

/-- A template between backticks, with its substitutions in order inside. -/
structure Backticked (s : Source) (n : Node) : Prop where
  opened : s.bytes[n.span.start]? = some 96
  closed : s.bytes[n.span.stop - 1]? = some 96
  inside : Span.InOrder n.inside.start (n.holes.map Node.span) n.inside.stop

/-- A template is cut at characters: at its ends, at its backticks and at its substitutions. -/
def CutAtCharacters (s : Source) (n : Node) : Prop :=
  ∀ c ∈ n.span :: n.inside :: n.holes.map Node.span, s.IsBoundary c.start ∧ s.IsBoundary c.stop

instance (s : Source) (n : Node) : Decidable (CutAtCharacters s n) :=
  inferInstanceAs (Decidable (∀ c ∈ n.span :: n.inside :: n.holes.map Node.span,
    s.IsBoundary c.start ∧ s.IsBoundary c.stop))

namespace Backticked

variable {s : Source} {n : Node} {α : Type} {f : Span → List α} {P : Nat → Prop} {x : α}

/-- What is read from a template is what is read from its backticks, and between these from its raw
text and its substitutions in turn. -/
theorem read_eq (h : Backticked s n) (hf : Span.Additive f P)
    (hp : ∀ c ∈ n.span :: n.inside :: n.holes.map Node.span, P c.start ∧ P c.stop)
    (hx : ∀ {k}, s.bytes[k]? = some 96 → f ⟨k, k + 1⟩ = [x]) :
    f n.span = x :: weave (n.rawSpans.map f) (n.holes.map fun c => f c.span) ++ [x] := by
  rw [List.forall_mem_cons, List.forall_mem_cons] at hp
  obtain ⟨⟨hstart, hstop⟩, ⟨hfirst, hlast⟩, hholes⟩ := hp
  have hinside : n.inside.start ≤ n.inside.stop := h.inside.le
  have hpos : n.inside.stop + 1 = n.span.stop := by
    simp only [Node.inside] at hinside ⊢
    omega
  have hopened : f ⟨n.span.start, n.inside.start⟩ = [x] := hx h.opened
  have hclosed : f ⟨n.inside.stop, n.span.stop⟩ = [x] := hpos ▸ hx h.closed
  have hweave : weave (n.rawSpans.map f) (n.holes.map fun c => f c.span) = f n.inside := by
    have := Span.weave_gaps hf hlast h.inside hfirst hholes
    rwa [List.map_map] at this
  -- the opening backtick is cut off first, and then the closing one
  calc f n.span
      = f ⟨n.span.start, n.inside.start⟩ ++ (f n.inside ++ f ⟨n.inside.stop, n.span.stop⟩) := by
        rw [hf hfirst hlast hstop hinside (Nat.sub_le _ _),
          hf hstart hfirst hstop (Nat.le_succ _) (Nat.le_trans hinside (Nat.sub_le _ _))]
    _ = [x] ++ (weave (n.rawSpans.map f) (n.holes.map fun c => f c.span) ++ [x]) := by
        rw [hopened, hclosed, hweave]

theorem bytesIn_eq (h : Backticked s n) : s.bytesIn n.span =
    96 :: weave (n.rawSpans.map s.bytesIn) (n.holes.map fun c => s.bytesIn c.span) ++ [96] :=
  h.read_eq s.additive_bytesIn (fun _ _ => ⟨trivial, trivial⟩) bytesIn_succ

theorem text_eq (h : Backticked s n) (hc : CutAtCharacters s n) : n.text s =
    96 :: weave (n.rawSpans.map s.slice) (n.holes.map (·.text s)) ++ [96] :=
  h.read_eq s.additive_slice hc fun hk => congrArg Utf8.decode (bytesIn_succ hk)

end Backticked

end Literal

namespace Grammar

open Node Literal

section Offsets

variable {source : Source} {s : Span}

theorem isBoundary_inBytes (hs : s.start ≤ source.length) (hl : s.stop ≤ source.length) :
    source.IsBoundary (inBytes source s).start ∧ source.IsBoundary (inBytes source s).stop := by
  rw [inBytes_of_le hs hl]
  exact ⟨⟨_, hs, rfl⟩, ⟨_, hl, rfl⟩⟩

/-- Spans of characters in order are in order in bytes. -/
theorem inOrder_inBytes {b : Nat} (hb : b ≤ source.length) : ∀ {cs : List Span} {a : Nat},
    Span.InOrder a cs b →
    Span.InOrder (source.offset a) (cs.map (inBytes source)) (source.offset b)
  | [], _, h => Utf8.offset_le h
  | c :: cs, a, h => by
    obtain ⟨hstart, hstop⟩ := h.mem_le c List.mem_cons_self
    rw [List.map_cons, inBytes_of_le (Nat.le_trans hstart hb) (Nat.le_trans hstop hb)]
    exact ⟨Utf8.offset_le h.1, Utf8.offset_le h.2.1, inOrder_inBytes hb h.2.2⟩

end Offsets

variable {i : Input} {d : Dialect} {source : Source} {m : Node} {comments : List Node}

/-- The substitutions among the parts of a literal lie one behind the other. -/
theorem Covers.inOrder {b : Nat} : ∀ {ns : List Node} {a : Nat}, Covers i a ns b →
    (∀ c ∈ ns, c.span.start < c.span.stop) → Span.InOrder a ((holesOf ns).map Node.span) b
  | [], _, h, _ => Nat.le_of_eq h
  | c :: ns, _, h, hn => by
    obtain ⟨rfl, -, hrest⟩ := h
    have hc := Nat.le_of_lt (hn c List.mem_cons_self)
    have ih := hrest.inOrder fun d hd => hn d (List.mem_cons_of_mem c hd)
    rw [holesOf, List.filter_cons]
    split
    · exact ⟨Nat.le_refl _, hc, ih⟩
    · exact ih.mono hc

/-- Comments that are put into a template are no substitutions of it. -/
theorem spans_holesOf_attachAll : ∀ {l comments : List Node},
    (∀ c ∈ comments, c.kind ≠ .templateSubstitution) →
    (holesOf (attachAll l comments)).map Node.span = (holesOf l).map Node.span
  | [], comments, h => by
    have hnone : holesOf comments = [] := List.filter_eq_nil_iff.2 (by simpa using h)
    rw [attachAll, hnone]
    rfl
  | c :: l, comments, h => by
    -- comments come before a part or into it, which leaves its kind and its span
    obtain ⟨earlier, inside, outside, he, -, ho, heq⟩ := attachAll_cons c l comments
    have hnone : holesOf earlier = [] :=
      List.filter_eq_nil_iff.2 (by simpa using fun c hc => h c (he hc))
    have ih : (holesOf (attachAll l outside)).map Node.span = (holesOf l).map Node.span :=
      spans_holesOf_attachAll fun c hc => h c (ho hc)
    have happend : holesOf (earlier ++ attach c inside :: attachAll l outside) =
        holesOf earlier ++ holesOf (attach c inside :: attachAll l outside) := List.filter_append ..
    rw [heq, happend, hnone, List.nil_append, holesOf, holesOf, List.filter_cons, List.filter_cons,
      kind_attach]
    split
    · rw [List.map_cons, List.map_cons, span_attach]
      exact congrArg _ ih
    · exact ih

theorem spans_holes_mapSpan (f : Span → Span) (n : Node) :
    (n.mapSpan f).holes.map Node.span = (n.holes.map Node.span).map f := by
  rw [holes, holesOf, allChildren_mapSpan, List.filter_map, List.map_map, List.map_map]
  simp only [Function.comp_def, kind_mapSpan, span_mapSpan]
  rfl

/-- The spans of a template of a tree over characters, in bytes. -/
theorem spans_template (hm : Member (d.input source) m) (hk : m.kind = .templateString)
    (hc : ∀ c ∈ comments, (d.input source).IsComment c) :
    let n := (attach m comments).mapSpan (inBytes source)
    n.span = source.stretch m.span.start m.span.stop ∧
      n.inside = source.stretch (m.span.start + 1) (m.span.stop - 1) ∧
      n.holes.map Node.span = (m.holes.map Node.span).map (inBytes source) := by
  intro n
  obtain ⟨hlt, hsize⟩ := hm.span (by rw [hk]; nofun)
  rw [size_input] at hsize
  have hcomments : ∀ c ∈ comments, c.kind ≠ .templateSubstitution := fun c h => by
    rcases (hc c h).kind with hk | hk <;> rw [hk] <;> nofun
  have hspan : n.span = source.stretch m.span.start m.span.stop := by
    rw [span_mapSpan, span_attach, inBytes_eq hlt hsize]
  obtain ⟨hfirst, hlast⟩ := offset_inside (hm.template hk).1
  refine ⟨hspan, ?_, ?_⟩
  · rw [inside, hspan, Source.stretch, Source.stretch, hfirst, hlast]
  · rw [spans_holes_mapSpan, holes, allChildren_attach, spans_holesOf_attachAll hcomments]
    rfl

theorem backticked_attach (hm : Member (d.input source) m) (hk : m.kind = .templateString)
    (hc : ∀ c ∈ comments, (d.input source).IsComment c) :
    let n := (attach m comments).mapSpan (inBytes source)
    Backticked source n ∧ CutAtCharacters source n := by
  intro n
  obtain ⟨htemplate, hne⟩ := hm.template hk
  obtain ⟨hlt, hsize⟩ := hm.span (by rw [hk]; nofun)
  rw [size_input] at hsize
  obtain ⟨hspan, hinside, hholes⟩ := spans_template hm hk hc
  have hend : m.span.stop - 1 ≤ source.length := Nat.le_trans (Nat.sub_le _ _) hsize
  have horder : Span.InOrder (m.span.start + 1) (m.holes.map Node.span) (m.span.stop - 1) :=
    htemplate.inside.inOrder hne
  refine ⟨⟨?_, ?_, ?_⟩, ?_⟩
  · rw [hspan]
    exact byte_of_char (by decide) htemplate.opened
  · rw [hspan, Source.stretch, (offset_inside htemplate).2]
    exact byte_of_char (by decide) htemplate.closed
  · rw [hinside, hholes]
    exact inOrder_inBytes hend horder
  · rw [CutAtCharacters, List.forall_mem_cons, List.forall_mem_cons, hspan, hinside, hholes,
      List.forall_mem_map]
    refine ⟨⟨⟨_, by omega, rfl⟩, ⟨_, hsize, rfl⟩⟩, ⟨⟨_, by omega, rfl⟩, ⟨_, hend, rfl⟩⟩,
      fun c hc => ?_⟩
    obtain ⟨hstart, hstop⟩ := horder.mem_le c hc
    exact isBoundary_inBytes (Nat.le_trans hstart hend) (Nat.le_trans hstop hend)

end Grammar

open Grammar Literal in
/-- Every template of a program that has been read is between backticks, and cut at characters. -/
theorem Program.backticked_of_read {doc : Document} {gs : List Text} {p : Program}
    (h : (read doc gs).outcome = .ok (some p)) {x : Node} (hx : x ∈ p.root.preorder)
    (hk : x.kind = .templateString) : Backticked p.source x ∧ CutAtCharacters p.source x := by
  obtain ⟨d, source, -, hp⟩ := parse?_of_read h
  obtain ⟨n, hn, rfl⟩ := exists_tree_of_parse? hp
  rw [Node.preorder_mapSpan, List.mem_map] at hx
  obtain ⟨x, hx, rfl⟩ := hx
  obtain ⟨m, comments, hm, hcomments, rfl⟩ := (isTree_parseChars hn).members x hx
  exact backticked_attach hm (by simpa using hk) hcomments

end KeyTrace
