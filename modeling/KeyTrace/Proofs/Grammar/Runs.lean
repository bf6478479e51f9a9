/-
How a parser moves through a program, and what it makes of what it reads.

A construct that is being read is a frame: where it starts, whether a token of it has
been read, and the nodes read since. Constructs inside one another are a stack of
frames. For every way to put parsers together there is a rule that says what it does
to the stack; a rule of the grammar is followed from the start to the node it makes.
-/
import KeyTrace.Proofs.Grammar.Reading
import KeyTrace.Proofs.Grammar.Sound

namespace KeyTrace.Grammar

open KeyTrace.Grammar.Parser

/-- What lies between the end of the last token and the start of the next. -/
inductive Stance where
  /-- All the blanks and comments that there are. -/
  | settled
  /-- Nothing. -/
  | tight
  /-- Anything. -/
  | loose

/-- A cursor stands in the text as it should. -/
structure Fits (i : Input) (st : Stance) (c : Cursor) : Prop where
  order : c.last ≤ c.pos
  within : c.pos ≤ i.chars.size
  comments : ∀ m ∈ c.comments, i.IsComment m
  between : match st with
    | .settled => i.Gap c.last c.pos
    | .tight => c.last = c.pos
    | .loose => True

theorem Fits.loosen {i : Input} {st : Stance} {c : Cursor} (h : Fits i st c) : Fits i .loose c :=
  ⟨h.order, h.within, h.comments, trivial⟩

/-- The nodes that the result of a parser holds. -/
class HoldsNodes (α : Type) where
  nodes : α → List Node

export HoldsNodes (nodes)

section Holding

variable {α β : Type} [HoldsNodes α] [HoldsNodes β]

instance : HoldsNodes Node := ⟨fun n => [n]⟩
instance : HoldsNodes Unit := ⟨fun _ => []⟩
instance : HoldsNodes Bool := ⟨fun _ => []⟩
instance : HoldsNodes CodePoint := ⟨fun _ => []⟩
instance : HoldsNodes DeclarationWord := ⟨fun _ => []⟩
instance : HoldsNodes (Option α) := ⟨fun o => o.elim [] nodes⟩
instance : HoldsNodes (List α) := ⟨fun l => l.flatMap nodes⟩
instance : HoldsNodes (α × β) := ⟨fun p => nodes p.1 ++ nodes p.2⟩

@[simp] theorem nodes_node (n : Node) : nodes n = [n] := rfl
@[simp] theorem nodes_unit (u : Unit) : nodes u = [] := rfl
@[simp] theorem nodes_bool (b : Bool) : nodes b = [] := rfl
@[simp] theorem nodes_point (c : CodePoint) : nodes c = [] := rfl
@[simp] theorem nodes_word (w : DeclarationWord) : nodes w = [] := rfl
@[simp] theorem nodes_none : nodes (none : Option α) = [] := rfl
@[simp] theorem nodes_some (a : α) : nodes (some a) = nodes a := rfl
@[simp] theorem nodes_pair (a : α) (b : β) : nodes (a, b) = nodes a ++ nodes b := rfl
@[simp] theorem nodes_nil : nodes ([] : List α) = [] := rfl
@[simp] theorem nodes_cons (a : α) (l : List α) : nodes (a :: l) = nodes a ++ nodes l := rfl

@[simp] theorem nodes_list (l : List Node) : nodes l = l := List.flatMap_singleton' l

@[simp] theorem nodes_lists (l : List (List Node)) : nodes l = l.flatten := by
  induction l with
  | nil => rfl
  | cons a l ih => simp [ih]

@[simp] theorem nodes_units (l : List Unit) : nodes l = [] := by
  induction l with
  | nil => rfl
  | cons u l ih => simp [ih]

@[simp] theorem nodes_text (t : Text) : nodes t = [] := by
  induction t with
  | nil => rfl
  | cons c t ih => simp [ih]

@[simp] theorem nodes_texts (ts : List Text) : nodes ts = [] := by
  induction ts with
  | nil => rfl
  | cons t ts ih => simp [ih]

@[simp] theorem nodes_options (l : List (Option Node)) : nodes l = l.filterMap id := by
  induction l with
  | nil => rfl
  | cons o l ih => cases o <;> simp [ih]

@[simp] theorem nodes_optionWord (o : Option DeclarationWord) : nodes o = [] := by cases o <;> rfl

@[simp] theorem nodes_option (o : Option Node) : nodes o = o.toList := by cases o <;> rfl

@[simp] theorem nodes_append (l l' : List α) : nodes (l ++ l') = nodes l ++ nodes l' :=
  List.flatMap_append

end Holding

/-- From one cursor to another, some nodes are read. -/
structure Step (i : Input) (st : Stance) (moves : Bool) (ns : List Node) (c c' : Cursor) :
    Prop where
  fits : Fits i st c'
  last_le : c.last ≤ c'.last
  pos_le : c.pos ≤ c'.pos
  moves : moves = true → c.pos < c'.last
  row : Row c.pos ns c'.last
  whole : ∀ n ∈ ns, Whole i n

/-- A parser takes the nodes of its result from the text, from one stance to another; one that
`moves` takes a token at least. -/
def Takes {α : Type} [HoldsNodes α] (i : Input) (st st' : Stance) (moves : Bool) (p : Parser α) :
    Prop :=
  ∀ c a c', Fits i st c → p i c = some (a, c') → Step i st' moves (nodes a) c c'

/-- A rule of the grammar that reads a construct. -/
abbrev Reads {α : Type} [HoldsNodes α] (i : Input) (p : Parser α) : Prop :=
  Takes i .settled .settled true p

/-- A rule of the grammar that may read nothing. -/
abbrev MayRead {α : Type} [HoldsNodes α] (i : Input) (p : Parser α) : Prop :=
  Takes i .settled .settled false p

/-- A parser that leaves the cursor where it is. -/
class Looks {α : Type} (p : Parser α) : Prop where
  eq : ∀ {i c a c'}, p i c = some (a, c') → c' = c

/-- A construct that is being read. -/
structure Frame where
  start : Nat
  /-- A token of it has been read. -/
  begun : Bool
  /-- A token of it has been read before any node. -/
  lead : Bool
  /-- The nodes read so far. -/
  nodes : List Node

namespace Frame

/-- Nothing has been read yet. -/
abbrev fresh (start : Nat) : Frame := ⟨start, false, false, []⟩

/-- One node is all that has been read. -/
abbrev whole (start : Nat) (n : Node) : Frame := ⟨start, true, false, [n]⟩

/-- More has been read. -/
abbrev grown (f : Frame) (moves : Bool) (ns : List Node) : Frame :=
  { f with begun := f.begun || moves, nodes := f.nodes ++ ns }

/-- What a frame says is true of a cursor. -/
structure Holds (i : Input) (f : Frame) (last pos : Nat) : Prop where
  start_le : f.start ≤ pos
  begun : f.begun = true → f.start < last
  lead : f.lead = true → f.begun = true
  row : Row (f.start + f.lead.toNat) f.nodes last
  whole : ∀ n ∈ f.nodes, Whole i n

variable {i : Input} {f : Frame} {last pos last' pos' : Nat}

theorem Holds.le (h : f.Holds i last pos) (hl : last ≤ pos) : f.start + f.lead.toNat ≤ pos := by
  cases hf : f.lead with
  | false => exact h.start_le
  | true => exact Nat.le_trans (h.begun (h.lead hf)) hl

theorem Holds.mono (h : f.Holds i last pos) (hl : last ≤ last') (hp : pos ≤ pos') :
    f.Holds i last' pos' :=
  ⟨Nat.le_trans h.start_le hp, fun hb => Nat.lt_of_lt_of_le (h.begun hb) hl, h.lead,
    h.row.mono (Nat.le_refl _) hl, h.whole⟩

/-- Reading on makes a frame grow. -/
theorem Holds.grown {moves : Bool} {ns : List Node} {c c' : Cursor} {st : Stance}
    (h : f.Holds i c.last c.pos) (hc : c.last ≤ c.pos) (hs : Step i st moves ns c c') :
    (f.grown moves ns).Holds i c'.last c'.pos where
  start_le := Nat.le_trans h.start_le hs.pos_le
  begun hb := by
    rcases Bool.or_eq_true_iff.1 hb with hb | hb
    · exact Nat.lt_of_lt_of_le (h.begun hb) hs.last_le
    · exact Nat.lt_of_le_of_lt h.start_le (hs.moves hb)
  lead hl := by rw [Frame.grown, h.lead hl, Bool.true_or]
  row := h.row.append (h.le hc) hc hs.last_le hs.row
  whole n hn := (List.mem_append.1 hn).elim (h.whole n) (hs.whole n)

end Frame

/-- What the frames of a stack, the innermost first, say is true of a cursor. A construct around
another has been read up to where that one starts; as long as that one has no token, it has been
read up to the cursor. -/
def Stack (i : Input) : List Frame → (last pos : Nat) → Prop
  | [], _, _ => True
  | f :: fs, last, pos => f.Holds i last pos ∧ Stack i fs f.start f.start ∧
      (f.begun = false → Stack i fs last pos)

theorem Stack.mono {i : Input} {last pos last' pos' : Nat} (hl : last ≤ last') (hp : pos ≤ pos') :
    ∀ {fs : List Frame}, Stack i fs last pos → Stack i fs last' pos'
  | [], _ => trivial
  | _ :: _, h => ⟨h.1.mono hl hp, h.2.1, fun hb => (h.2.2 hb).mono hl hp⟩

theorem Stack.fresh {i : Input} {st : Stance} {c : Cursor} {fs : List Frame} (hc : Fits i st c)
    (hs : Stack i fs c.last c.pos) : Stack i (.fresh c.pos :: fs) c.last c.pos :=
  ⟨⟨Nat.le_refl _, nofun, nofun, trivial, nofun⟩, hs.mono hc.order (Nat.le_refl _), fun _ => hs⟩

theorem Stack.grown {i : Input} {st st' : Stance} {f : Frame} {fs : List Frame} {moves : Bool}
    {ns : List Node} {c c' : Cursor} (hc : Fits i st c) (h : Stack i (f :: fs) c.last c.pos)
    (hs : Step i st' moves ns c c') : Stack i (f.grown moves ns :: fs) c'.last c'.pos :=
  ⟨h.1.grown hc.order hs, h.2.1, fun hb =>
    (h.2.2 (Bool.or_eq_false_iff.1 hb).1).mono hs.last_le hs.pos_le⟩

/-- A parser that starts with some frames ends with others. -/
def Run {α : Type} (i : Input) (st : Stance) (fs : List Frame) (p : Parser α) (st' : Stance)
    (fs' : α → List Frame) : Prop :=
  ∀ c a c', Fits i st c → Stack i fs c.last c.pos → p i c = some (a, c') →
    Fits i st' c' ∧ c.last ≤ c'.last ∧ c.pos ≤ c'.pos ∧ Stack i (fs' a) c'.last c'.pos

section Rules

variable {α β : Type} {i : Input} {st st' st₁ : Stance} {f g : Frame} {fs : List Frame}
  {fs₁ : α → List Frame} {fs' : β → List Frame} {p q : Parser α} {k : α → Parser β}

/-- One parser after another, which may use that its argument is a result of the first. -/
theorem Run.bindWith (hp : Run i st fs p st₁ fs₁)
    (hk : ∀ c a c', p i c = some (a, c') → Run i st₁ (fs₁ a) (k a) st' fs') :
    Run i st fs (p >>= k) st' fs' := by
  intro c b c' hc hs h
  obtain ⟨a, c₁, ha, h⟩ := Parser.bind_eq_some h
  obtain ⟨hc₁, hl, hp, hs₁⟩ := hp c a c₁ hc hs ha
  obtain ⟨hc', hl', hp', hs'⟩ := hk c a c₁ ha c₁ b c' hc₁ hs₁ h
  exact ⟨hc', Nat.le_trans hl hl', Nat.le_trans hp hp', hs'⟩

theorem Run.bind (hp : Run i st fs p st₁ fs₁) (hk : ∀ a, Run i st₁ (fs₁ a) (k a) st' fs') :
    Run i st fs (p >>= k) st' fs' := .bindWith hp fun _ a _ _ => hk a

/-- What is read belongs to the innermost construct. -/
theorem Takes.run [HoldsNodes α] {moves : Bool} (hp : Takes i st st₁ moves p) :
    Run i st (f :: fs) p st₁ fun a => f.grown moves (nodes a) :: fs := fun c a c' hc hs h =>
  have ha := hp c a c' hc h
  ⟨ha.fits, ha.last_le, ha.pos_le, hs.grown hc ha⟩

theorem Run.readWith [HoldsNodes α] {moves : Bool} (hp : Takes i st st₁ moves p)
    (hk : ∀ c a c', p i c = some (a, c') →
      Run i st₁ (f.grown moves (nodes a) :: fs) (k a) st' fs') :
    Run i st (f :: fs) (p >>= k) st' fs' := .bindWith hp.run hk

theorem Run.read [HoldsNodes α] {moves : Bool} (hp : Takes i st st₁ moves p)
    (hk : ∀ a, Run i st₁ (f.grown moves (nodes a) :: fs) (k a) st' fs') :
    Run i st (f :: fs) (p >>= k) st' fs' := .bind hp.run hk

/-- A part that is a construct of its own. -/
theorem Run.part [HoldsNodes α] (hp : Reads i p)
    (hk : ∀ a, Run i .settled (f.grown true (nodes a) :: fs) (k a) st' fs') :
    Run i .settled (f :: fs) (p >>= k) st' fs' := .read hp hk

/-- Looking at what is there changes nothing. -/
theorem Looks.run [Looks p] : Run i st fs p st fun _ => fs := fun c a c' hc hs h => by
  cases Looks.eq h
  exact ⟨hc, Nat.le_refl _, Nat.le_refl _, hs⟩

theorem Run.lookWith [Looks p] (hk : ∀ c a, p i c = some (a, c) → Run i st fs (k a) st' fs') :
    Run i st fs (p >>= k) st' fs' :=
  .bindWith Looks.run fun c a _ h => hk c a (Looks.eq h ▸ h)

theorem Run.look [Looks p] (hk : ∀ a, Run i st fs (k a) st' fs') :
    Run i st fs (p >>= k) st' fs' := .bind Looks.run hk

/-- A construct starts. -/
theorem Run.here {k : Nat → Parser β} (hk : ∀ s, Run i st (.fresh s :: fs) (k s) st' fs') :
    Run i st fs (here >>= k) st' fs' := by
  have hhere : Run i st fs Parser.here st fun s => .fresh s :: fs := fun _ _ _ hc hs h => by
    cases h
    exact ⟨hc, Nat.le_refl _, Nat.le_refl _, hs.fresh hc⟩
  exact .bind hhere hk

/-- What has been read of the innermost construct is read of the one around it. -/
theorem Run.merge (hp : Run i st (g.grown f.begun f.nodes :: fs) p st' fs₁) :
    Run i st (f :: g :: fs) p st' fs₁ := by
  intro c a c' hc ⟨hf, ⟨hg, hs, hlow⟩, hsame⟩ h
  refine hp c a c' hc ⟨⟨Nat.le_trans hg.start_le hf.start_le, fun hb => ?_, fun hl => ?_, ?_, ?_⟩, hs,
    fun hb => ?_⟩ h
  · cases hfb : f.begun with
    | true => exact Nat.lt_of_le_of_lt hg.start_le (hf.begun hfb)
    | false =>
      rw [Frame.grown, hfb, Bool.or_false] at hb
      exact (hsame hfb).1.begun hb
  · rw [Frame.grown, hg.lead hl, Bool.true_or]
  · have hrow := hf.row.mono (Nat.le_add_right _ _) (Nat.le_refl _)
    cases hfn : f.nodes with
    | nil =>
      rw [Frame.grown, List.append_nil]
      cases hfb : f.begun with
      | true => exact hg.row.mono (Nat.le_refl _) (Nat.le_of_lt (hf.begun hfb))
      | false => exact (hsame hfb).1.row
    | cons n ns =>
      rw [hfn] at hrow
      have hn := (hf.whole n (by rw [hfn]; exact List.mem_cons_self)).nonempty
      have := hrow.1
      have := hrow.2.1
      exact hg.row.append (hg.le (Nat.le_refl _)) (Nat.le_refl _) (by omega) hrow
  · exact fun n hn => (List.mem_append.1 hn).elim (hg.whole n) (hf.whole n)
  · have hb := Bool.or_eq_false_iff.1 hb
    exact (hsame hb.2).2.2 hb.1

/-- What stands between the start of a construct and the cursor is a good node. -/
theorem Frame.Holds.node {last pos : Nat} (hf : f.Holds i last pos) (hp : last ≤ i.chars.size)
    (hb : f.begun = true) {kind : Kind} {ch : List Node} (hch : ch.map plain = f.nodes.map plain)
    (hk : isConstruct kind = true)
    (hs : kind.opensScope = true → ∀ c ∈ ch, c.span ≠ ⟨f.start, last⟩)
    (hi : kind.isImport = true → ∀ c ∈ ch, c.role = .source → c.kind = .string)
    (hparts : kind.Has (ch.map Node.part)) : Whole i (.mk .none kind ⟨f.start, last⟩ ch) := by
  have hwhole := whole_of_plain_eq hch hf.whole
  simp only [isConstruct, Bool.and_eq_true, bne_iff_ne, Bool.not_eq_true'] at hk
  refine ⟨.of_children ?_ fun c hc => (hwhole c hc).sound, fun h => absurd h hk.1.2⟩
  exact {
    nonempty := hf.begun hb
    within := hp
    row := row_of_plain_eq hch (hf.row.mono (Nat.le_add_right _ _) (Nat.le_refl _))
    kind := hk.1.1.1
    comment := hk.1.1.2
    smaller := hs
    strings := fun c hc hs => .inr ((hwhole c hc).string hs)
    template := fun h => absurd h hk.2
    source := hi
    parts := hparts }

/-- Of most kinds of node nothing else is asked than what their children are. -/
theorem Frame.Holds.nodePlain {last pos : Nat} (hf : f.Holds i last pos) (hp : last ≤ i.chars.size)
    (hb : f.begun = true) {kind : Kind} {ch : List Node} (hch : ch.map plain = f.nodes.map plain)
    (hk : isPlain kind = true) (hparts : kind.Has (ch.map Node.part)) :
    Whole i (.mk .none kind ⟨f.start, last⟩ ch) := by
  simp only [isPlain, Bool.and_eq_true, Bool.not_eq_true'] at hk
  exact hf.node hp hb hch hk.1.1 (fun h => Bool.noConfusion (h.symm.trans hk.1.2))
    (fun h => Bool.noConfusion (h.symm.trans hk.2)) hparts

theorem isPlain_of_isFree {kind : Kind} {ch : List Node} (h : isFree kind ch = true) :
    isPlain kind = true := by
  simp only [isFree, Bool.and_eq_true] at h
  exact h.1.1

theorem Run.closeWith {kind : Kind} {ch : List Node} {k : Node → Parser β} (hb : f.begun = true)
    (hnode : ∀ last pos, f.Holds i last pos → last ≤ i.chars.size →
      Whole i (.mk .none kind ⟨f.start, last⟩ ch))
    (hn : ∀ n : Node, n.kind = kind → Run i st (.whole f.start n :: fs) (k n) st' fs') :
    Run i st (f :: fs) (node kind f.start ch >>= k) st' fs' := by
  intro c b c' hc hs h
  obtain ⟨n, c₁, he, h⟩ := Parser.bind_eq_some h
  cases he
  have hwhole := hnode c.last c.pos hs.1 (Nat.le_trans hc.order hc.within)
  refine hn _ rfl c b c' hc ⟨⟨hs.1.start_le, fun _ => hs.1.begun hb, nofun, ?_, ?_⟩, hs.2.1, nofun⟩ h
  · exact ⟨Nat.le_refl _, Nat.le_refl _, trivial⟩
  · intro m hm
    rw [List.mem_singleton] at hm
    exact hm ▸ hwhole

/-- A construct ends whose children are what they should be. -/
theorem Run.closeParts {kind : Kind} {ch : List Node} {k : Node → Parser β}
    (hb : (f.begun && isPlain kind) = true) (hparts : kind.Has (ch.map Node.part))
    (hch : ch.map plain = f.nodes.map plain)
    (hn : ∀ n : Node, n.kind = kind → Run i st (.whole f.start n :: fs) (k n) st' fs') :
    Run i st (f :: fs) (node kind f.start ch >>= k) st' fs' :=
  have hb := Bool.and_eq_true_iff.1 hb
  .closeWith hb.1 (fun _ _ hf hp => hf.nodePlain hp hb.1 hch hb.2 hparts) hn

/-- A construct ends: it is one node now. -/
theorem Run.close {kind : Kind} {ch : List Node} {k : Node → Parser β}
    (hb : (f.begun && isFree kind ch) = true) (hch : ch.map plain = f.nodes.map plain)
    (hn : ∀ n : Node, n.kind = kind → Run i st (.whole f.start n :: fs) (k n) st' fs') :
    Run i st (f :: fs) (node kind f.start ch >>= k) st' fs' :=
  have hb := Bool.and_eq_true_iff.1 hb
  .closeParts (Bool.and_eq_true_iff.2 ⟨hb.1, isPlain_of_isFree hb.2⟩) (has_of_isFree hb.2) hch hn

/-- A construct ends with other nodes than have been read, at the same places. -/
theorem Run.closeOther {kind : Kind} {ch : List Node} {k : Node → Parser β}
    (hb : (f.begun && isFree kind ch) = true) (hch : ch.map Node.span = f.nodes.map Node.span)
    (hw : (∀ n ∈ f.nodes, Whole i n) → ∀ n ∈ ch, Whole i n)
    (hn : ∀ n : Node, n.kind = kind → Run i st (.whole f.start n :: fs) (k n) st' fs') :
    Run i st (f :: fs) (node kind f.start ch >>= k) st' fs' := by
  have hb := Bool.and_eq_true_iff.1 hb
  refine .closeWith hb.1 (fun last pos hf hp => ?_) hn
  have hf' : ({ f with nodes := ch } : Frame).Holds i last pos :=
    ⟨hf.start_le, hf.begun, hf.lead, row_of_span_eq hch hf.row, hw hf.whole⟩
  exact hf'.nodePlain hp hb.1 rfl (isPlain_of_isFree hb.2) (has_of_isFree hb.2)

/-- A construct with a scope ends. Something of it comes before its first part, or it has several
parts, so that no part takes all of it. -/
theorem Run.closeScope {kind : Kind} {ch : List Node} {k : Node → Parser β} (hb : f.begun = true)
    (hk : kind.opensScope = true) (hs : f.lead = true ∨ 2 ≤ ch.length)
    (hch : ch.map plain = f.nodes.map plain)
    (hn : ∀ n : Node, n.kind = kind → Run i st (.whole f.start n :: fs) (k n) st' fs') :
    Run i st (f :: fs) (node kind f.start ch >>= k) st' fs' := by
  have hkind : isConstruct kind = true ∧ kind.isImport = false ∧ kind.hasParts = false ∧
      kind.isName = false := by
    cases kind <;> first | exact ⟨rfl, rfl, rfl, rfl⟩ | cases hk
  refine .closeWith hb (fun last pos hf hp => hf.node hp hb hch hkind.1 (fun _ => ?_)
    (fun h => Bool.noConfusion (h.symm.trans hkind.2.1)) <| .of_not_hasParts hkind.2.2.1
    fun h => Bool.noConfusion (h.symm.trans hkind.2.2.2)) hn
  have hn : ∀ c ∈ ch, c.span.start < c.span.stop := fun c hc =>
    (whole_of_plain_eq hch hf.whole c hc).nonempty
  rcases hs with hl | hl
  · intro c hc he
    have := ((row_of_plain_eq hch hf.row).mem_le hn c hc).1
    rw [hl, he] at this
    exact absurd this (Nat.not_succ_le_self _)
  · exact (row_of_plain_eq hch (hf.row.mono (Nat.le_add_right _ _) (Nat.le_refl _))).span_ne hn hl

/-- A construct starts with something that is no node. -/
theorem Run.lead (hb : f.begun = true) (hp : Run i st (⟨f.start, true, true, []⟩ :: fs) p st' fs₁) :
    Run i st (f :: fs) p st' fs₁ := fun c a c' hc hs h =>
  hp c a c' hc ⟨⟨hs.1.start_le, fun _ => hs.1.begun hb, fun _ => rfl, trivial, nofun⟩, hs.2.1, nofun⟩
    h

/-- A parser ends as its last part does. -/
theorem Run.last (hp : Run i st fs (p >>= pure) st' fs₁) : Run i st fs p st' fs₁ :=
  fun c a c' hc hs h => hp c a c' hc hs (by simp only [Bind.bind, Parser.bind, h]; rfl)

/-- A result that holds what has been read. -/
theorem Run.done {a : α} {g : α → Frame} (hs : (g a).start = f.start)
    (hb : (!(g a).begun || f.begun) = true) (hl : (g a).lead = false)
    (hn : (g a).nodes.map plain = f.nodes.map plain) :
    Run i st [f] (pure a) st (fun a => [g a]) := by
  intro c b c' hc hs' h
  cases h
  refine ⟨hc, Nat.le_refl _, Nat.le_refl _, ⟨?_, ?_, ?_, ?_, ?_⟩, trivial, fun _ => trivial⟩
  · exact hs ▸ hs'.1.start_le
  · intro h
    rw [h] at hb
    exact hs ▸ hs'.1.begun hb
  · rw [hl]
    nofun
  · rw [hl, hs]
    exact row_of_plain_eq hn (hs'.1.row.mono (Nat.le_add_right _ _) (Nat.le_refl _))
  · exact whole_of_plain_eq hn hs'.1.whole

/-- The result of a rule. -/
theorem Run.result [HoldsNodes α] {a : α} {moves : Bool} (hb : (!moves || f.begun) = true)
    (hn : (nodes a).map plain = f.nodes.map plain) :
    Run i st [f] (pure a) st (fun a : α => [⟨f.start, moves, false, nodes a⟩]) :=
  .done (g := fun a => ⟨f.start, moves, false, nodes a⟩) rfl hb rfl hn

/-- The last part of a rule is its result. -/
theorem Run.only [HoldsNodes α] {moves moves' : Bool} (hp : Takes i st st' moves p)
    (hb : (!moves' || (f.begun || moves)) = true) (hn : f.nodes = []) :
    Run i st [f] p st' (fun a : α => [⟨f.start, moves', false, nodes a⟩]) :=
  .last <| .read hp fun a => .result hb (by simp [hn])

/-- A rule ends with a look at what follows. -/
theorem Run.check {p : Parser Unit} [Looks p] {moves : Bool} (hb : (!moves || f.begun) = true)
    (hn : f.nodes = []) :
    Run i st [f] p st (fun a : Unit => [⟨f.start, moves, false, nodes a⟩]) :=
  .last <| .look fun _ => .result hb (by simp [hn])

/-- A rule ends with the node it makes. -/
theorem Run.node {kind : Kind} {ch : List Node}
    (hb : (f.begun && isFree kind ch && g.nodes.isEmpty) = true)
    (hch : ch.map plain = f.nodes.map plain) :
    Run i st [f, g] (Parser.node kind f.start ch) st
      (fun n : Node => [⟨g.start, true, false, [n]⟩]) := by
  rw [Bool.and_eq_true, List.isEmpty_iff] at hb
  exact .last <| .close hb.1 hch fun n _ => .merge <|
    .done rfl (Bool.or_true _) rfl (by simp [hb.2])

/-- A rule ends with a node whose children are what they should be. -/
theorem Run.nodeParts {kind : Kind} {ch : List Node}
    (hb : (f.begun && isPlain kind && g.nodes.isEmpty) = true) (hparts : kind.Has (ch.map Node.part))
    (hch : ch.map plain = f.nodes.map plain) :
    Run i st [f, g] (Parser.node kind f.start ch) st
      (fun n : Node => [⟨g.start, true, false, [n]⟩]) := by
  rw [Bool.and_eq_true, List.isEmpty_iff] at hb
  exact .last <| .closeParts hb.1 hparts hch fun n _ => .merge <|
    .done rfl (Bool.or_true _) rfl (by simp [hb.2])

/-- A rule ends with the node it makes, to which a scope can belong. -/
theorem Run.nodeScope {kind : Kind} {ch : List Node} (hb : (f.begun && g.nodes.isEmpty) = true)
    (hk : kind.opensScope = true) (hs : f.lead = true ∨ 2 ≤ ch.length)
    (hch : ch.map plain = f.nodes.map plain) :
    Run i st [f, g] (Parser.node kind f.start ch) st
      (fun n : Node => [⟨g.start, true, false, [n]⟩]) := by
  rw [Bool.and_eq_true, List.isEmpty_iff] at hb
  exact .last <| .closeScope hb.1 hk hs hch fun n _ => .merge <|
    .done rfl (Bool.or_true _) rfl (by simp [hb.2])

/-- A rule ends with an import statement. -/
theorem Run.nodeImport {kind : Kind} {ch : List Node}
    (hb : (f.begun && kind.isImport && g.nodes.isEmpty) = true)
    (hch : ch.map plain = f.nodes.map plain) (hs : ∀ c ∈ ch, c.role = .source → c.kind = .string) :
    Run i st [f, g] (Parser.node kind f.start ch) st
      (fun n : Node => [⟨g.start, true, false, [n]⟩]) := by
  rw [Bool.and_eq_true, Bool.and_eq_true, List.isEmpty_iff] at hb
  have hkind : isConstruct kind = true ∧ kind.opensScope = false ∧ kind.hasParts = false ∧
      kind.isName = false := by
    cases kind <;> first | exact ⟨rfl, rfl, rfl, rfl⟩ | cases hb.1.2
  exact .last <| .closeWith hb.1.1 (fun _ _ hf hp => hf.node hp hb.1.1 hch hkind.1
    (fun h => Bool.noConfusion (h.symm.trans hkind.2.1)) (fun _ => hs) <|
    .of_not_hasParts hkind.2.2.1 fun h => Bool.noConfusion (h.symm.trans hkind.2.2.2))
    fun n _ => .merge <| .done rfl (Bool.or_true _) rfl (by simp [hb.2])

theorem Run.orElse {q : Unit → Parser α} (hp : Run i st fs p st' fs₁)
    (hq : Run i st fs (q ()) st' fs₁) : Run i st fs (HOrElse.hOrElse p q) st' fs₁ := by
  intro c a c' hc hs h
  change Parser.orElse p q i c = some (a, c') at h
  unfold Parser.orElse at h
  split at h
  · next r hr =>
    cases h
    exact hp c a c' hc hs hr
  · exact hq c a c' hc hs h

theorem Run.ite {b : Prop} [Decidable b] (hp : b → Run i st fs p st' fs₁)
    (hq : ¬ b → Run i st fs q st' fs₁) : Run i st fs (if b then p else q) st' fs₁ := by
  split
  · next hb => exact hp hb
  · next hb => exact hq hb

theorem Run.guard {b : Bool} {k : Unit → Parser β} (hk : b = true → Run i st fs (k ()) st' fs') :
    Run i st fs (Parser.guard b >>= k) st' fs' := by
  cases b with
  | true => exact hk rfl
  | false => exact fun _ _ _ _ _ h => by cases h

/-- Nothing is left to read. -/
theorem Run.stay {a : α} (h : fs₁ a = fs) : Run i st fs (pure a) st fs₁ := fun c b c' hc hs he => by
  cases he
  exact ⟨hc, Nat.le_refl _, Nat.le_refl _, h ▸ hs⟩

theorem Run.fail : Run i st fs (Parser.fail : Parser α) st' fs₁ := fun _ _ _ _ _ h => by cases h

theorem Run.pureBind {a : α} (hk : Run i st fs (k a) st' fs') :
    Run i st fs (pure a >>= k) st' fs' := hk

/-- What is there or not. -/
theorem Run.testRun {k : Bool → Parser β} (hp : Run i st fs p st₁ fs₁)
    (hyes : ∀ a : α, Run i st₁ (fs₁ a) (k true) st' fs') (hno : Run i st fs (k false) st' fs') :
    Run i st fs (test p >>= k) st' fs' := by
  intro c b c' hc hs h
  obtain ⟨r, c₁, hr, h⟩ := Parser.bind_eq_some h
  unfold Parser.test at hr
  split at hr
  · next a c₂ ha =>
    cases hr
    obtain ⟨hc₁, hl₁, hp₁, hs₁⟩ := hp c a c₁ hc hs ha
    obtain ⟨hc', hl, hp, hs'⟩ := hyes a c₁ b c' hc₁ hs₁ h
    exact ⟨hc', Nat.le_trans hl₁ hl, Nat.le_trans hp₁ hp, hs'⟩
  · cases hr
    exact hno c b c' hc hs h

theorem Run.test [HoldsNodes α] {moves : Bool} {k : Bool → Parser β} (hp : Takes i st st₁ moves p)
    (hyes : ∀ a : α, Run i st₁ (f.grown moves (nodes a) :: fs) (k true) st' fs')
    (hno : Run i st (f :: fs) (k false) st' fs') :
    Run i st (f :: fs) (test p >>= k) st' fs' := .testRun hp.run hyes hno

/-- A part that is there or not. -/
theorem Run.optionRun {k : Option α → Parser β} (hp : Run i st fs p st₁ fs₁)
    (hyes : ∀ a, Run i st₁ (fs₁ a) (k (some a)) st' fs') (hno : Run i st fs (k none) st' fs') :
    Run i st fs (option? p >>= k) st' fs' := by
  intro c b c' hc hs h
  obtain ⟨r, c₁, hr, h⟩ := Parser.bind_eq_some h
  unfold Parser.option? at hr
  split at hr
  · next a c₂ ha =>
    cases hr
    obtain ⟨hc₁, hl₁, hp₁, hs₁⟩ := hp c a c₁ hc hs ha
    obtain ⟨hc', hl, hp, hs'⟩ := hyes a c₁ b c' hc₁ hs₁ h
    exact ⟨hc', Nat.le_trans hl₁ hl, Nat.le_trans hp₁ hp, hs'⟩
  · cases hr
    exact hno c b c' hc hs h

theorem Run.option [HoldsNodes α] {moves : Bool} {k : Option α → Parser β}
    (hp : Takes i st st₁ moves p)
    (hyes : ∀ a, Run i st₁ (f.grown moves (nodes a) :: fs) (k (some a)) st' fs')
    (hno : Run i st (f :: fs) (k none) st' fs') :
    Run i st (f :: fs) (option? p >>= k) st' fs' := .optionRun hp.run hyes hno

/-- A run with nothing around it is one with anything around it. -/
theorem Run.around {f' : α → Frame} (hp : Run i st [f] p st' (fun a => [f' a]))
    (hs : ∀ a, (f' a).start = f.start) (hb : ∀ a, (f' a).begun = true) :
    Run i st (f :: fs) p st' (fun a => f' a :: fs) := by
  intro c a c' hc hst h
  obtain ⟨hc', hl, hp, hf, -⟩ := hp c a c' hc ⟨hst.1, trivial, fun _ => trivial⟩ h
  exact ⟨hc', hl, hp, hf, hs a ▸ hst.2.1, fun h => by rw [hb a] at h; cases h⟩

end Rules

/-- What is true of the rounds of a repetition, the first put in front of the others. -/
theorem many_induction {α : Type} {i : Input} {p : Parser α} {F : Cursor → Prop}
    {P : List α → Cursor → Cursor → Prop} (hnil : ∀ c, F c → P [] c c)
    (hcons : ∀ c a c₁, F c → p i c = some (a, c₁) →
      F c₁ ∧ ∀ l c', P l c₁ c' → P (a :: l) c c') {c c' : Cursor} {l : List α} (hc : F c)
    (h : many p i c = some (l, c')) : P l c c' := by
  have hfrom : ∀ {n : Nat} {acc : List α} {c c' : Cursor} {l : List α}, F c →
      manyFrom p n acc i c = some (l, c') → ∃ l', l = acc.reverse ++ l' ∧ P l' c c' := by
    intro n
    induction n with
    | zero =>
      intro acc c c' l hc h
      cases h
      exact ⟨[], (List.append_nil _).symm, hnil c hc⟩
    | succ n ih =>
      intro acc c c' l hc h
      unfold Parser.manyFrom at h
      split at h
      · cases h
        exact ⟨[], (List.append_nil _).symm, hnil c hc⟩
      · next a c₁ ha =>
        split at h
        · cases h
          exact ⟨[], (List.append_nil _).symm, hnil c hc⟩
        · obtain ⟨hc₁, hstep⟩ := hcons c a c₁ hc ha
          obtain ⟨l', rfl, hl⟩ := ih hc₁ h
          exact ⟨a :: l', by simp, hstep l' c' hl⟩
  obtain ⟨l', rfl, hl⟩ := hfrom hc h
  exact hl

/-- What has been read goes on, from its first node, as one node that starts where that one does. -/
abbrev Extends (i : Input) (start : Nat) (left : Node) (p : Parser Node) : Prop :=
  Run i .settled [.whole start left] p .settled fun n => [.whole start n]

theorem Run.extend {β : Type} {i : Input} {st' : Stance} {f : Frame} {fs : List Frame}
    {fs' : β → List Frame} {left : Node} {p : Parser Node} {k : Node → Parser β}
    (hp : Extends i f.start left p) (hf : f = .whole f.start left)
    (hk : ∀ n, Run i .settled (.whole f.start n :: fs) (k n) st' fs') :
    Run i .settled (f :: fs) (p >>= k) st' fs' := by
  rw [hf]
  exact .bind (.around hp (fun _ => rfl) fun _ => rfl) hk

section Takes

variable {α β : Type} [HoldsNodes α] [HoldsNodes β] {i : Input} {st st' : Stance} {moves : Bool}
  {p q : Parser α}

/-- A parser takes what it adds to a construct. -/
theorem Takes.of_run (h : ∀ s, Run i st [.fresh s] p st' fun a : α => [⟨s, moves, false, nodes a⟩]) :
    Takes i st st' moves p := by
  intro c a c' hc ha
  obtain ⟨hc', hl, hp, ⟨-, hb, -, hr, hw⟩, -⟩ := h c.pos c a c' hc
    (Stack.fresh hc (show Stack i [] c.last c.pos from trivial)) ha
  exact ⟨hc', hl, hp, hb, hr, hw⟩

theorem Takes.weaken (h : Takes i st st' moves p) : Takes i st st' false p := fun c a c' hc ha =>
  { h c a c' hc ha with moves := nofun }

theorem Takes.orElse {q : Unit → Parser α} (hp : Takes i st st' moves p)
    (hq : Takes i st st' moves (q ())) : Takes i st st' moves (HOrElse.hOrElse p q) := by
  intro c a c' hc h
  change Parser.orElse p q i c = some (a, c') at h
  unfold Parser.orElse at h
  split at h
  · next r hr =>
    cases h
    exact hp c a c' hc hr
  · exact hq c a c' hc h

/-- Nothing has been read. -/
theorem Step.refl {c : Cursor} (hc : Fits i st c) : Step i st false [] c c :=
  ⟨hc, Nat.le_refl _, Nat.le_refl _, nofun, trivial, nofun⟩

theorem Step.trans {m m' : Bool} {ns ns' : List Node} {c c₁ c' : Cursor}
    (h : Step i st m ns c c₁) (h' : Step i st' m' ns' c₁ c') :
    Step i st' (m || m') (ns ++ ns') c c' where
  fits := h'.fits
  last_le := Nat.le_trans h.last_le h'.last_le
  pos_le := Nat.le_trans h.pos_le h'.pos_le
  moves hm := by
    rcases Bool.or_eq_true_iff.1 hm with hm | hm
    · exact Nat.lt_of_lt_of_le (h.moves hm) h'.last_le
    · exact Nat.lt_of_le_of_lt h.pos_le (h'.moves hm)
  row := h.row.append h.pos_le h.fits.order h'.last_le h'.row
  whole n hn := (List.mem_append.1 hn).elim (h.whole n) (h'.whole n)

theorem Takes.optionOf (hp : Takes i st st moves p) : Takes i st st false (option? p) := by
  intro c a c' hc h
  unfold Parser.option? at h
  split at h
  · next b c₁ hb =>
    cases h
    exact hp.weaken c b c' hc hb
  · cases h
    exact .refl hc

theorem Takes.testOf (hp : Takes i st st moves p) : Takes i st st false (test p) := by
  intro c a c' hc h
  unfold Parser.test at h
  split at h
  · next b c₁ hb =>
    cases h
    exact { hp.weaken c b c' hc hb with row := trivial, whole := nofun }
  · cases h
    exact .refl hc

theorem Takes.manyOf (hp : Takes i st st moves p) : Takes i st st false (many p) := by
  intro c l c' hc h
  refine many_induction (F := Fits i st) (P := fun l c c' => Step i st false (nodes l) c c')
    (fun c hc => .refl hc) (fun c a c₁ hc ha => ?_) hc h
  have hs := hp.weaken c a c₁ hc ha
  exact ⟨hs.fits, fun l c' h => hs.trans h⟩

theorem Takes.option (hp : Reads i p) : MayRead i (option? p) := .optionOf hp

theorem Takes.test (hp : Reads i p) : MayRead i (test p) := .testOf hp

theorem Takes.many (hp : Reads i p) : MayRead i (many p) := .manyOf hp

theorem Takes.sepBy1 {sep : Parser Unit} (hp : Reads i p) (hsep : MayRead i sep) :
    Reads i (sepBy1 p sep) := by
  unfold Parser.sepBy1
  refine .of_run fun s => .read hp fun first => .read (.many ?_) fun rest => ?_
  · exact .of_run fun s => .read hsep fun _ => .only hp rfl rfl
  · exact .result rfl (by simp)

theorem Takes.sepBy {sep : Parser Unit} (hp : Reads i p) (hsep : MayRead i sep) :
    MayRead i (sepBy p sep) := by
  unfold Parser.sepBy
  refine .of_run fun s => .read (.option (hp.sepBy1 hsep)) fun l => .result rfl ?_
  cases l <;> simp

end Takes

/-! ## What parsers make -/

/-- Whatever a parser makes has a property. -/
def Yields {α : Type} (P : α → Prop) (p : Parser α) : Prop :=
  ∀ i c a c', p i c = some (a, c') → P a

namespace Yields

variable {α β : Type} {P : α → Prop} {Q : β → Prop} {p q : Parser α} {k : α → Parser β}

theorem bind (hp : Yields P p) (hk : ∀ a, P a → Yields Q (k a)) : Yields Q (p >>= k) := by
  intro i c b c' h
  obtain ⟨a, c₁, ha, h⟩ := Parser.bind_eq_some h
  exact hk a (hp i c a c₁ ha) i c₁ b c' h

theorem skip (hk : ∀ a, Yields Q (k a)) : Yields Q (p >>= k) := by
  intro i c b c' h
  obtain ⟨a, c₁, -, h⟩ := Parser.bind_eq_some h
  exact hk a i c₁ b c' h

theorem pure {a : α} (h : P a) : Yields P (pure a) := by
  intro i c b c' hb
  cases hb
  exact h

theorem orElse {q : Unit → Parser α} (hp : Yields P p) (hq : Yields P (q ())) :
    Yields P (HOrElse.hOrElse p q) := by
  intro i c a c' h
  change Parser.orElse p q i c = some (a, c') at h
  unfold Parser.orElse at h
  split at h
  · next r hr =>
    cases h
    exact hp i c a c' hr
  · exact hq i c a c' h

theorem many (hp : Yields P p) : Yields (fun l : List α => ∀ a ∈ l, P a) (many p) := by
  intro i c l c' h
  refine many_induction (F := fun _ => True) (P := fun l _ _ => ∀ a ∈ l, P a) (fun _ _ => nofun)
    (fun c a c₁ _ ha => ⟨trivial, fun l c' hl => ?_⟩) trivial h
  exact List.forall_mem_cons.2 ⟨hp i c a c₁ ha, hl⟩

theorem option {P : α → Prop} (hp : Yields P p) : Yields (fun o : Option α => ∀ a ∈ o, P a) (option? p) := by
  intro i c o c' h a ha
  unfold Parser.option? at h
  split at h
  · next hb =>
    cases h
    cases ha
    exact hp _ _ _ _ hb
  · cases h
    cases ha

end Yields

theorem Yields.node {P : Node → Prop} {kind : Kind} {start : Nat} {ch : List Node}
    (h : ∀ s, P (.mk .none kind s ch)) : Yields P (node kind start ch) := by
  intro i c n c' hn
  cases hn
  exact h _

end KeyTrace.Grammar
