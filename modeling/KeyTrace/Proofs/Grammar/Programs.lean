/-
What is true of every program that is read: where its nodes are in the source, and
that its literals have values.
-/
import KeyTrace.Proofs.Grammar.Pieces
import KeyTrace.Proofs.Grammar.Rules.Program
import KeyTrace.Proofs.Grammar.Trees
import KeyTrace.Proofs.Text.Utf8
import Mathlib.Data.List.Induction

namespace KeyTrace

namespace Source

/-- How many characters a source has. -/
def length (s : Source) : Nat := (Utf8.pieces s.bytes.toList).length

/-- The text of a source. -/
def text (s : Source) : Text := Utf8.decode s.bytes.toList

/-- Where a character of a source starts, in bytes. -/
def offset (s : Source) (a : Nat) : Nat := Utf8.offset s.bytes.toList a

/-- A stretch of characters of a source, in bytes. -/
def stretch (s : Source) (a b : Nat) : Span := ⟨s.offset a, s.offset b⟩

variable {s : Source} {a b : Nat}

@[simp] theorem length_text : s.text.length = s.length := List.length_map _

theorem slice_stretch (h : a ≤ b) : s.slice (s.stretch a b) = s.text.between a b := by
  rw [slice, Array.toList_extract, List.extract_eq_take_drop, stretch]
  dsimp only
  rw [← List.drop_take]
  exact Utf8.decode_between h

end Source

namespace Grammar

section Offsets

theorem byteOffsets_eq (ps : List Utf8.Piece) : (byteOffsets ps).size = ps.length + 1 ∧
    ∀ k ≤ ps.length, (byteOffsets ps).getD k 0 = Utf8.size (ps.take k) := by
  induction ps using List.reverseRecOn with
  | nil => exact ⟨rfl, fun k hk => by rw [Nat.le_zero.1 hk]; rfl⟩
  | append_singleton ps p ih =>
    have hpush : byteOffsets (ps ++ [p]) =
        (byteOffsets ps).push ((byteOffsets ps).back?.getD 0 + p.width) := List.foldl_append
    have hback : (byteOffsets ps).back?.getD 0 = Utf8.size ps := by
      have h := ih.2 ps.length (Nat.le_refl _)
      have hlast : ps.length = (byteOffsets ps).size - 1 := by rw [ih.1, Nat.add_sub_cancel]
      rwa [Array.getD_eq_getD_getElem?, List.take_length, hlast, ← Array.back?_eq_getElem?] at h
    rw [hpush, hback]
    refine ⟨by simp [ih.1], fun k hk => ?_⟩
    rw [List.length_append, List.length_singleton] at hk
    rw [Array.getD_eq_getD_getElem?, Array.getElem?_push, ih.1]
    rcases Nat.eq_or_lt_of_le hk with rfl | hk
    · rw [if_pos rfl, List.take_of_length_le (by simp), Utf8.size_append]
      rfl
    · rw [if_neg (Nat.ne_of_lt hk), ← Array.getD_eq_getD_getElem?, ih.2 k (by omega),
        List.take_append_of_le_length (by omega)]

variable {d : Dialect} {source : Source} {s : Span}

/-- The characters of a source as a grammar reads them. -/
def Dialect.input (d : Dialect) (source : Source) : Input :=
  ⟨d, ((Utf8.pieces source.bytes.toList).map fun p => p.point.getD brokenByte).toArray⟩

@[simp] theorem size_input : (d.input source).chars.size = source.length := by
  simp [Dialect.input, Source.length]

@[simp] theorem text_input : (d.input source).text = source.text := by
  rw [Input.text, Dialect.input, List.toList_toArray, List.map_map, Source.text, Utf8.decode]
  refine List.map_congr_left fun q hq => ?_
  change legible (q.point.getD brokenByte) = _
  cases hc : q.point with
  | none => rfl
  | some c => exact if_neg (Nat.ne_of_lt (Nat.lt_succ_of_le (Utf8.point_le hq hc)))

/-- A span of characters in bytes, by the table of offsets. -/
def inBytes (source : Source) (s : Span) : Span :=
  let offsets := byteOffsets (Utf8.pieces source.bytes.toList)
  ⟨offsets.getD s.start 0, offsets.getD s.stop 0⟩

theorem inBytes_of_le (hs : s.start ≤ source.length) (hl : s.stop ≤ source.length) :
    inBytes source s = source.stretch s.start s.stop := by
  have h := (byteOffsets_eq (Utf8.pieces source.bytes.toList)).2
  rw [inBytes, h _ hl, h _ hs]
  rfl

theorem inBytes_eq (hs : s.start < s.stop) (hl : s.stop ≤ source.length) :
    inBytes source s = source.stretch s.start s.stop :=
  inBytes_of_le (Nat.le_trans (Nat.le_of_lt hs) hl) hl

end Offsets

section Members

variable {i : Input} {n m x : Node}

/-- What is true of every node of a tree, the root included. -/
structure Member (i : Input) (n : Node) : Prop where
  span : n.kind ≠ .program → n.span.start < n.span.stop ∧ n.span.stop ≤ i.chars.size
  within : n.span.start ≤ i.chars.size ∧ n.span.stop ≤ i.chars.size
  children : ∀ c ∈ n.allChildren, c.kind ≠ .program
  strings : ∀ c ∈ n.allChildren, c.kind = .string → n.IsAttribute ∨ IsString i c
  template : n.kind = .templateString →
    IsTemplate i n ∧ ∀ c ∈ n.allChildren, c.span.start < c.span.stop
  source : n.kind.isImport = true → ∀ c ∈ n.allChildren, c.role = .source → c.kind = .string
  row : Row n.span.start n.allChildren n.span.stop
  bare : ∀ c ∈ n.allChildren, c.kind.isRemark = false
  parts : n.kind.Has (n.allChildren.map Node.part)

theorem Sound.member (h : Sound i n) (hm : m ∈ n.preorder) : Member i m :=
  have hg := h m hm
  have hchild (c : Node) (hc : c ∈ m.allChildren) := h c (Place.child_mem_preorder hm hc)
  ⟨fun _ => ⟨hg.nonempty, hg.within⟩, ⟨Nat.le_trans (Nat.le_of_lt hg.nonempty) hg.within, hg.within⟩,
    fun c hc => (hchild c hc).kind, hg.strings,
    fun hk => ⟨hg.template hk, fun c hc => (hchild c hc).nonempty⟩, hg.source, hg.row,
    fun c hc => (hchild c hc).comment, hg.parts⟩

theorem Input.IsComment.member (h : i.IsComment n) : Member i n := by
  have hkind : n.kind ≠ .templateString ∧ n.kind.hasParts = false := by
    rcases h.kind with hk | hk <;> rw [hk] <;> exact ⟨nofun, rfl⟩
  refine ⟨fun _ => ⟨h.nonempty, h.within⟩,
    ⟨Nat.le_trans (Nat.le_of_lt h.nonempty) h.within, h.within⟩, ?_, ?_, fun hk => absurd hk hkind.1,
    ?_, ?_, ?_, .of_not_hasParts hkind.2 fun _ => ?_⟩ <;> rw [h.children]
  · nofun
  · nofun
  · nofun
  · trivial
  · nofun
  · rfl

/-- A tree of a program with the comments in it. -/
structure IsTree (i : Input) (n : Node) : Prop where
  kind : n.kind = .program
  members : ∀ x ∈ n.preorder, ∃ m inside, Member i m ∧ (∀ c ∈ inside, i.IsComment c) ∧
    x = attach m inside

theorem isTree_parseChars (h : parseChars i = some n) : IsTree i n := by
  unfold parseChars at h
  split at h
  · next m cursor hm =>
    cases h
    obtain ⟨cs, rfl, hrow, hcs, hcomments⟩ := program_sound hm
    have hleaf : ∀ c ∈ cursor.comments.reverse, c.allChildren = [] := fun c hc =>
      (hcomments c (List.mem_reverse.1 hc)).children
    refine ⟨kind_attach _ _, fun x hx => ?_⟩
    rcases mem_preorder_attach hleaf hx with hx | ⟨m, hm, inside, hsub, rfl⟩
    · have hx := hcomments x (List.mem_reverse.1 hx)
      refine ⟨x, [], hx.member, nofun, ?_⟩
      have hnil := hx.children
      obtain ⟨r, k, s, xs⟩ := x
      change xs = [] at hnil
      rw [hnil]
      rfl
    · refine ⟨m, inside, ?_, fun c hc => hcomments c (List.mem_reverse.1 (hsub hc)), rfl⟩
      rw [Node.preorder_eq, List.mem_cons, Node.preorderAll_eq_flatMap, List.mem_flatMap] at hm
      rcases hm with rfl | ⟨c, hc, hm⟩
      · exact ⟨fun h => absurd rfl h, ⟨Nat.zero_le _, Nat.le_refl _⟩, fun c hc => ((hcs c hc).sound c c.mem_preorder_self).kind,
          fun c hc hk => .inr ((hcs c hc).string hk), nofun, nofun, hrow,
          fun c hc => ((hcs c hc).sound c c.mem_preorder_self).comment, nofun⟩
      · exact (hcs c hc).sound.member hm
  · cases h

end Members

section Literals

open Literal

variable {d : Dialect} {source : Source} {n m x : Node} {inside : List Node}

/-- No escape of a tree is out of range. -/
def EscapesValid (i : Input) (n : Node) : Prop :=
  ∀ x ∈ n.preorder, x.kind = .escapeSequence →
    isOutOfRange (i.text.between x.span.start x.span.stop) = false

variable {i : Input}

theorem EscapesValid.of_attach (h : EscapesValid i n) (hx : attach m inside ∈ n.preorder) {c : Node}
    (hc : c ∈ m.allChildren) (hk : c.kind = .escapeSequence) :
    isOutOfRange (i.text.between c.span.start c.span.stop) = false := by
  obtain ⟨inside', -, hmem⟩ := attach_mem_attachAll inside hc
  rw [← allChildren_attach] at hmem
  simpa using h _ (Place.child_mem_preorder hx hmem) (by rw [kind_attach, hk])

theorem stringValue_ok (hs : IsString (d.input source) m)
    (hv : ∀ c ∈ m.allChildren, c.kind = .escapeSequence →
      isOutOfRange (source.text.between c.span.start c.span.stop) = false)
    (hl : m.span.stop ≤ source.length) (hn : n.span = source.stretch m.span.start m.span.stop) :
    ∃ v, stringValue source n = .ok v := by
  have hq := hs.quotes
  have hcook := cookable_covered hs.inside hs.pieces (by simpa using hv)
  rw [text_input] at hcook
  rw [stringValue, Node.text, hn, Source.slice_stretch (by omega), Text.inner_between (by simpa using hl)]
  exact hcook

/-- What cooks leaves it to what follows whether all of it cooks. -/
def Passes (t : Text) : Prop := ∀ u, Cookable (t ++ u) ↔ Cookable u

/-- What stands before the first substitution of a template plays no part in those behind it. -/
theorem partsFrom_skip {stop cursor : Nat} {l' : List Node} : ∀ {l : List Node},
    (∀ c ∈ l, c.kind ≠ .templateSubstitution) →
    Template.partsFrom source stop cursor (l ++ l') = Template.partsFrom source stop cursor l'
  | [], _ => rfl
  | c :: l, h => by
    rw [List.cons_append, Template.partsFrom, if_neg (h c List.mem_cons_self)]
    exact partsFrom_skip fun c hc => h c (List.mem_cons_of_mem _ hc)

theorem cookTemplate_ok {a b : Nat} (hab : a ≤ b) (h : Passes (source.text.between a b)) :
    ∃ v, cookTemplate (source.slice (source.stretch a b)) = .ok v := by
  rw [Source.slice_stretch hab]
  have h := h []
  rw [List.append_nil] at h
  exact (cookable_joinLineEnds _).2 (h.2 ⟨[], rfl⟩)

/-- A template whose text has been cut up can be taken apart, comments or not. Between the last
substitution, which ends at `q`, and `a` are pieces that have been passed. -/
theorem partsFrom_ok {b : Nat} : ∀ {ns comments : List Node} {a q : Nat},
    Covers (d.input source) a ns b → (∀ c ∈ ns, c.span.start < c.span.stop) →
    (∀ c ∈ ns, c.kind = .escapeSequence →
      isOutOfRange (source.text.between c.span.start c.span.stop) = false) →
    (∀ c ∈ comments, c.kind ≠ .templateSubstitution) → b ≤ source.length → q ≤ a →
    Passes (source.text.between q a) →
    ∃ r, Template.partsFrom source (source.offset b) (source.offset q)
      ((attachAll ns comments).map (Node.mapSpan (inBytes source))) = .ok r
  | [], comments, a, q, h, _, _, hc, _, hle, hp => by
    obtain rfl : a = b := h
    obtain ⟨v, hv⟩ := cookTemplate_ok hle hp
    rw [attachAll, ← List.append_nil (List.map _ _), partsFrom_skip (by simpa using hc),
      Template.partsFrom, show (⟨source.offset q, source.offset a⟩ : Span) = source.stretch q a from rfl,
      hv]
    exact ⟨_, rfl⟩
  | c :: ns, comments, a, q, h, hn, hv, hc, hb, hle, hp => by
    obtain ⟨rfl, hcase, hrest⟩ := h
    have hns := fun d hd => hn d (List.mem_cons_of_mem _ hd)
    have hvs := fun d hd => hv d (List.mem_cons_of_mem _ hd)
    have hlt := hn c List.mem_cons_self
    have hstop := (hrest.row hns).1
    obtain ⟨earlier, inside, outside, he, -, ho, heq⟩ := attachAll_cons c ns comments
    have hc' : ∀ d ∈ outside, d.kind ≠ .templateSubstitution := fun d hd => hc d (ho hd)
    have hearlier : ∀ d ∈ earlier, d.kind ≠ .templateSubstitution := fun d hd => hc d (he hd)
    rw [heq, List.map_append, List.map_cons, partsFrom_skip (by simpa using hearlier),
      Template.partsFrom]
    -- A piece is added to the text that has been passed; a substitution ends that text, and a new
    -- one starts behind it.
    rcases hcase with hpiece | hk
    · have hk : c.kind ≠ .templateSubstitution := by
        rcases hpiece.cases with ⟨hk, -⟩ | ⟨hk, -⟩ <;> rw [hk] <;> nofun
      rw [if_neg (by simpa using hk)]
      refine partsFrom_ok hrest hns hvs hc' hb (Nat.le_trans hle (Nat.le_of_lt hlt)) fun u => ?_
      rw [Text.between_append hle (Nat.le_of_lt hlt), List.append_assoc, hp]
      have := cookable_piece hpiece (by simpa using hv c List.mem_cons_self) u
      rwa [text_input] at this
    · rw [if_pos (by simpa using hk)]
      obtain ⟨v, hv'⟩ := cookTemplate_ok hle hp
      obtain ⟨r, hr⟩ := partsFrom_ok (q := c.span.stop) hrest hns hvs hc' hb (Nat.le_refl _)
        fun u => by rw [Text.between_self, List.nil_append]
      rw [Node.span_mapSpan, span_attach, inBytes_eq hlt (Nat.le_trans hstop hb)]
      simp only [Source.stretch] at hv' ⊢
      rw [hv', hr]
      exact ⟨_, rfl⟩

theorem point_of_char {k c : Nat} (hc : c < 0x80) (h : (d.input source).char k = c) :
    ∃ hk : k < (Utf8.pieces source.bytes.toList).length,
      (Utf8.pieces source.bytes.toList)[k].point = some c := by
  have hk : k < (Utf8.pieces source.bytes.toList).length := by
    have := Input.lt_size_of_char_eq (Nat.ne_of_lt (Nat.lt_trans hc (by decide))) h
    rwa [size_input] at this
  have hpoint : (Utf8.pieces source.bytes.toList)[k].point.getD brokenByte = c := by
    rw [Input.char, Array.getD_eq_getD_getElem?] at h
    simpa [Dialect.input, List.getElem?_eq_getElem hk] using h
  refine ⟨hk, ?_⟩
  cases hp : (Utf8.pieces source.bytes.toList)[k].point with
  | none =>
    rw [hp, Option.getD_none] at hpoint
    rw [← hpoint] at hc
    exact absurd hc (by decide)
  | some c' =>
    rw [hp] at hpoint
    exact congrArg some hpoint

theorem offset_succ {k c : Nat} (hc : c < 0x80) (h : (d.input source).char k = c) :
    source.offset (k + 1) = source.offset k + 1 := by
  obtain ⟨hk, hpoint⟩ := point_of_char hc h
  rw [Source.offset, Source.offset, Utf8.offset_succ hk]
  exact congrArg _ (Utf8.width_eq_one (List.getElem_mem hk) hpoint hc)

theorem byte_of_char {k c : Nat} (hc : c < 0x80) (h : (d.input source).char k = c) :
    source.bytes[source.offset k]? = some (UInt8.ofNat c) := by
  obtain ⟨hk, hpoint⟩ := point_of_char hc h
  have hdrop := Utf8.pieces_drop k source.bytes.toList
  rw [List.drop_eq_getElem_cons hk] at hdrop
  have hhead := Utf8.head?_of_pieces hdrop hpoint hc
  rwa [List.head?_drop, Array.getElem?_toList] at hhead

/-- A backtick takes one byte, so that one byte less is one character less. -/
theorem offset_inside (h : IsTemplate (d.input source) m) :
    source.offset m.span.start + 1 = source.offset (m.span.start + 1) ∧
      source.offset m.span.stop - 1 = source.offset (m.span.stop - 1) := by
  have hfirst := offset_succ (by decide) h.opened
  have hlast := offset_succ (by decide) h.closed
  have hquotes := h.quotes
  rw [Nat.sub_add_cancel (by omega)] at hlast
  exact ⟨hfirst.symm, by rw [hlast, Nat.add_sub_cancel]⟩

theorem ofNode_ok (hm : Member (d.input source) m) (hk : m.kind = .templateString)
    (hv : ∀ c ∈ m.allChildren, c.kind = .escapeSequence →
      isOutOfRange (source.text.between c.span.start c.span.stop) = false)
    (hc : ∀ c ∈ inside, (d.input source).IsComment c) :
    ∃ t, Template.ofNode source ((attach m inside).mapSpan (inBytes source)) = .ok t := by
  obtain ⟨htemplate, hne⟩ := hm.template hk
  obtain ⟨hlt, hsize⟩ := hm.span (by rw [hk]; nofun)
  rw [size_input] at hsize
  have hcomments : ∀ c ∈ inside, c.kind ≠ .templateSubstitution := fun c h => by
    rcases (hc c h).kind with hk | hk <;> rw [hk] <;> nofun
  obtain ⟨hfirst, hlast⟩ := offset_inside htemplate
  obtain ⟨r, hr⟩ := partsFrom_ok htemplate.inside hne hv hcomments (by omega) (Nat.le_refl _)
    fun u => by rw [Text.between_self, List.nil_append]
  rw [Template.ofNode, Node.span_mapSpan, span_attach, Node.allChildren_mapSpan, allChildren_attach,
    inBytes_eq hlt hsize]
  simp only [Source.stretch]
  rw [hlast, hfirst, hr]
  exact ⟨_, rfl⟩

end Literals

end Grammar

namespace Program

open Grammar Literal

/-- What is true of a node of a program that has been read. -/
structure Legal (p : Program) (n : Node) : Prop where
  /-- It spans some characters of the source. -/
  place : n.kind ≠ .program → ∃ a b, a < b ∧ b ≤ p.source.length ∧ n.span = p.source.stretch a b
  /-- There are no programs inside. -/
  children : ∀ c ∈ n.allChildren, c.kind ≠ .program
  /-- A string has a value, unless it is the text of a JSX attribute. -/
  strings : ∀ c ∈ n.allChildren, c.kind = .string →
    n.IsAttribute ∨ ∃ v, stringValue p.source c = .ok v
  template : n.kind = .templateString → ∃ t, Template.ofNode p.source n = .ok t
  source : n.kind.isImport = true → ∀ c ∈ n.allChildren, c.role = .source → c.kind = .string

variable {d : Dialect} {source : Source} {n x : Node}

theorem span_of_isTree (htree : IsTree (d.input source) n) (hx : x ∈ n.preorder)
    (hk : x.kind ≠ .program) : x.span.start < x.span.stop ∧ x.span.stop ≤ source.length := by
  obtain ⟨m, inside, hm, -, rfl⟩ := htree.members x hx
  rw [span_attach, ← size_input]
  exact hm.span (by simpa using hk)

theorem escapesValid_of_all (htree : IsTree (d.input source) n)
    (h : ∀ x ∈ (n.mapSpan (inBytes source)).preorder,
      (!(x.kind == .escapeSequence && isOutOfRange (x.text source))) = true) :
    EscapesValid (d.input source) n := by
  intro x hx hk
  obtain ⟨hlt, hle⟩ := span_of_isTree htree hx (by rw [hk]; nofun)
  have h := h (x.mapSpan (inBytes source))
    (by rw [Node.preorder_mapSpan]; exact List.mem_map_of_mem hx)
  rw [Node.kind_mapSpan, hk, Node.text, Node.span_mapSpan, inBytes_eq hlt hle,
    Source.slice_stretch (Nat.le_of_lt hlt)] at h
  simpa using h

theorem legal_of_isTree (htree : IsTree (d.input source) n)
    (hv : EscapesValid (d.input source) n) (hx : x ∈ n.preorder) :
    Legal ⟨source, n.mapSpan (inBytes source)⟩ (x.mapSpan (inBytes source)) := by
  obtain ⟨m, inside, hm, hinside, rfl⟩ := htree.members x hx
  -- what is below the node was there before the comments, unless it is a comment
  have hchild {y : Node} (hy : y ∈ ((attach m inside).mapSpan (inBytes source)).allChildren) :
      y.role = .none ∧ y.kind ≠ .string ∧ y.kind ≠ .program ∨ ∃ c ∈ m.allChildren, ∃ inside',
        attach c inside' ∈ n.preorder ∧ y = (attach c inside').mapSpan (inBytes source) := by
    rw [Node.allChildren_mapSpan, List.mem_map] at hy
    obtain ⟨z, hz, rfl⟩ := hy
    have hmem := Place.child_mem_preorder hx hz
    rw [allChildren_attach] at hz
    rcases mem_attachAll hz with hz | ⟨c, hc, inside', -, rfl⟩
    · rw [Node.kind_mapSpan, Node.role_mapSpan]
      refine .inl ⟨(hinside z hz).role, ?_⟩
      rcases (hinside z hz).kind with hk | hk <;> rw [hk] <;> exact ⟨nofun, nofun⟩
    · exact .inr ⟨c, hc, inside', hmem, rfl⟩
  refine ⟨fun hk => ?_, fun y hy => ?_, fun y hy hk => ?_, fun hk => ?_, fun hk y hy hr => ?_⟩
  · obtain ⟨hlt, hle⟩ := span_of_isTree htree hx (by simpa using hk)
    exact ⟨_, _, hlt, hle, by rw [Node.span_mapSpan, inBytes_eq hlt hle]⟩
  · rcases hchild hy with ⟨-, -, hy⟩ | ⟨c, hc, inside', hmem, rfl⟩
    · exact hy
    · simpa using hm.children c hc
  · rcases hchild hy with ⟨-, hy, -⟩ | ⟨c, hc, inside', hmem, rfl⟩
    · exact absurd hk hy
    · have hk : c.kind = .string := by simpa using hk
      rcases hm.strings c hc hk with ⟨ha, b, hb, hbk⟩ | hs
      · obtain ⟨inside', -, hmem⟩ := attach_mem_attachAll inside hb
        refine .inl ⟨by simpa using ha, (attach b inside').mapSpan (inBytes source), ?_,
          by simpa using hbk⟩
        rw [Node.allChildren_mapSpan, allChildren_attach]
        exact List.mem_map_of_mem hmem
      · obtain ⟨hlt, hle⟩ := span_of_isTree htree hmem (by simp [hk])
        rw [span_attach] at hlt hle
        exact .inr (stringValue_ok hs (fun b hb hbk => by simpa using hv.of_attach hmem hb hbk) hle
          (by rw [Node.span_mapSpan, span_attach, inBytes_eq hlt hle]))
  · exact ofNode_ok hm (by simpa using hk) (fun b hb hbk => by simpa using hv.of_attach hx hb hbk)
      hinside
  · rcases hchild hy with ⟨hy, -⟩ | ⟨c, hc, inside', -, rfl⟩
    · exact absurd (hy.symm.trans hr) nofun
    · rw [Node.kind_mapSpan, kind_attach]
      exact hm.source (by simpa using hk) c hc (by simpa using hr)

/-- What has been read in a grammar is a tree over the characters of the source, in bytes. -/
theorem exists_tree_of_parse? {p : Program} (h : parse? d source = some p) :
    ∃ n, parseChars (d.input source) = some n ∧ p = ⟨source, n.mapSpan (inBytes source)⟩ := by
  obtain ⟨hroot, rfl, -⟩ := of_parse? h
  obtain ⟨n, hn, hmap⟩ := Option.map_eq_some_iff.1 (show _ = some p.root from hroot)
  exact ⟨n, hn, (congrArg (Program.mk p.source) hmap).symm⟩

theorem legal_of_parse? {p : Program} (h : parse? d source = some p) :
    ∀ n ∈ p.root.preorder, p.Legal n := by
  obtain ⟨n, hn, rfl⟩ := exists_tree_of_parse? h
  have htree := isTree_parseChars hn
  have hescapes := escapesValid_of_all htree (List.all_eq_true.1 (of_parse? h).2.2)
  intro x hx
  rw [Node.preorder_mapSpan, List.mem_map] at hx
  obtain ⟨x, hx, rfl⟩ := hx
  exact legal_of_isTree htree hescapes hx

/-- What is known of every node of a program that has been read. -/
theorem legal_of_read {doc : Document} {gs : List Text} {p : Program}
    (h : (read doc gs).outcome = .ok (some p)) : ∀ n ∈ p.root.preorder, p.Legal n := by
  obtain ⟨_, _, -, hp⟩ := parse?_of_read h
  exact legal_of_parse? hp

end Program

end KeyTrace
