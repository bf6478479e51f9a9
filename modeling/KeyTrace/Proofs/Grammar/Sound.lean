/-
What is true of every node that the grammar builds.

A node spans at least one character of the text, and its children lie in it one
after the other. The inside of a string, and that of a template outside of its
substitutions, is cut into stretches without a backslash and escapes. Only the text
of a JSX attribute is a string that is not cut up.
-/
import KeyTrace.Proofs.Grammar.Positions
import KeyTrace.Proofs.Scope.Lexical
import KeyTrace.Proofs.Syntax.Places

namespace KeyTrace

/-- The kinds of import statement. -/
def Kind.isImport : Kind → Bool
  | .importStatement _ => true
  | _ => false

/-- The kinds of comment. -/
def Kind.isRemark : Kind → Bool
  | .comment | .htmlComment => true
  | _ => false

/-- The kinds of name that have nothing below them. -/
def Kind.isName : Kind → Bool
  | .identifier | .propertyIdentifier | .privatePropertyIdentifier => true
  | _ => false

/-- The kinds of node of which it is said what their children are to them. -/
def Kind.hasParts : Kind → Bool
  | .callExpression | .memberExpression | .variableDeclarator => true
  | _ => false

/-- What a child is to a node, and its kind. -/
abbrev Node.part (n : Node) : Role × Kind := (n.role, n.kind)

/-- What the children of a node of some kind are to it: a call has what is called first and its
arguments last, and between them nothing but types that it is applied to; a member has its object
first, and then names; a declarator has first what it declares; and a name has no children. -/
def Kind.Has : Kind → List (Role × Kind) → Prop
  | .callExpression, l => ∃ f ts args, l = (.function, f) :: (ts ++ [(.arguments, args)]) ∧
      ∀ t ∈ ts, t = (.none, .typeArguments)
  | .memberExpression, l => ∃ o names, l = (.object, o) :: names ∧ ∀ n ∈ names, n.2.isName = true
  | .variableDeclarator, l => ∃ n more, l = (.name, n) :: more
  | k, l => k.isName = true → l = []

theorem Kind.Has.of_not_hasParts {k : Kind} {l : List (Role × Kind)} (hk : k.hasParts = false)
    (h : k.isName = true → l = []) : k.Has l := by
  cases k
  case callExpression | memberExpression | variableDeclarator => cases hk
  all_goals exact h

/-- An attribute of a JSX element by its name. -/
def Node.IsAttribute (n : Node) : Prop :=
  n.kind = .jsxSyntax ∧ ∃ c ∈ n.allChildren, c.kind = .propertyIdentifier

namespace Grammar

/-- Nodes lie one after the other between two positions. -/
def Row : (a : Nat) → List Node → (b : Nat) → Prop
  | _, [], _ => True
  | a, n :: ns, b => a ≤ n.span.start ∧ n.span.stop ≤ b ∧ Row n.span.stop ns b

namespace Row

theorem mono {a a' b b' : Nat} : ∀ {ns : List Node}, Row a ns b → a' ≤ a → b ≤ b' → Row a' ns b'
  | [], _, _, _ => trivial
  | _ :: _, h, ha, hb =>
    ⟨Nat.le_trans ha h.1, Nat.le_trans h.2.1 hb, mono h.2.2 (Nat.le_refl _) hb⟩

theorem append {a b c d : Nat} {ms : List Node} : ∀ {ns : List Node}, Row a ns b → a ≤ c → b ≤ c →
    b ≤ d → Row c ms d → Row a (ns ++ ms) d
  | [], _, hac, _, _, h' => h'.mono hac (Nat.le_refl _)
  | _ :: _, h, _, hbc, hbd, h' =>
    ⟨h.1, Nat.le_trans h.2.1 hbd, append h.2.2 (Nat.le_trans h.2.1 hbc) hbc hbd h'⟩

/-- The nodes of a row lie between its ends. -/
theorem mem_le {b : Nat} : ∀ {a : Nat} {ns : List Node}, Row a ns b →
    (∀ n ∈ ns, n.span.start < n.span.stop) → ∀ n ∈ ns, a ≤ n.span.start ∧ n.span.stop ≤ b
  | _, m :: ns, h, hw, n, hn => by
    rcases List.mem_cons.1 hn with rfl | hn
    · exact ⟨h.1, h.2.1⟩
    · have hm := hw m List.mem_cons_self
      have := h.2.2.mem_le (fun n hn => hw n (List.mem_cons_of_mem _ hn)) n hn
      have := h.1
      omega

/-- Of two nodes or more in a row, none takes all of it. -/
theorem span_ne {a b : Nat} {ns : List Node} (h : Row a ns b)
    (hw : ∀ n ∈ ns, n.span.start < n.span.stop) (hl : 2 ≤ ns.length) :
    ∀ n ∈ ns, n.span ≠ ⟨a, b⟩ := by
  match ns with
  | m :: m' :: ns =>
    have hm := hw m List.mem_cons_self
    have hm' := hw m' (by simp)
    have hlast := h.2.2.1
    have hstop := h.2.2.2.1
    have hstart := h.1
    intro n hn he
    have hns : n.span.start = a := congrArg Span.start he
    have hnt : n.span.stop = b := congrArg Span.stop he
    rcases List.mem_cons.1 hn with rfl | hn
    · omega
    · have := (h.2.2.mem_le (fun n hn => hw n (List.mem_cons_of_mem _ hn)) n hn).1
      omega

end Row

/-- A stretch of a literal without a backslash, or an escape. -/
structure IsPiece (i : Input) (n : Node) : Prop where
  leaf : n.allChildren = []
  nonempty : n.span.start < n.span.stop
  cases : n.kind = .stringFragment ∧
      (∀ k, n.span.start ≤ k → k < n.span.stop → i.char k ≠ 92) ∨
    n.kind = .escapeSequence ∧ i.char n.span.start = 92 ∧
      i.escapeEnd? n.span.start = some n.span.stop

/-- Pieces of a literal and substitutions cover the text between two positions. -/
def Covers (i : Input) : (a : Nat) → List Node → (b : Nat) → Prop
  | a, [], b => a = b
  | a, n :: ns, b => n.span.start = a ∧ (IsPiece i n ∨ n.kind = .templateSubstitution) ∧
      Covers i n.span.stop ns b

/-- The inside of a literal is cut up. -/
structure IsRead (i : Input) (n : Node) : Prop where
  quotes : n.span.start + 2 ≤ n.span.stop
  inside : Covers i (n.span.start + 1) n.allChildren (n.span.stop - 1)

/-- A string without anything to replace in it. -/
structure IsString (i : Input) (n : Node) : Prop extends IsRead i n where
  pieces : ∀ c ∈ n.allChildren, IsPiece i c

/-- A template between backticks. -/
structure IsTemplate (i : Input) (n : Node) : Prop extends IsRead i n where
  opened : i.char n.span.start = 96
  closed : i.char (n.span.stop - 1) = 96

/-- What is true of a node and its children. -/
structure Good (i : Input) (n : Node) : Prop where
  nonempty : n.span.start < n.span.stop
  within : n.span.stop ≤ i.chars.size
  row : Row n.span.start n.allChildren n.span.stop
  kind : n.kind ≠ .program
  comment : n.kind.isRemark = false
  /-- A child of a node that a scope can belong to is smaller than the node. -/
  smaller : n.kind.opensScope = true → ∀ c ∈ n.allChildren, c.span ≠ n.span
  strings : ∀ c ∈ n.allChildren, c.kind = .string → n.IsAttribute ∨ IsString i c
  template : n.kind = .templateString → IsTemplate i n
  /-- The module that an import is from is named by a string. -/
  source : n.kind.isImport = true → ∀ c ∈ n.allChildren, c.role = .source → c.kind = .string
  parts : n.kind.Has (n.allChildren.map Node.part)

/-- What is true of every node of a tree. -/
def Sound (i : Input) (n : Node) : Prop := ∀ m ∈ n.preorder, Good i m

theorem Sound.of_children {i : Input} {n : Node} (h : Good i n)
    (hc : ∀ c ∈ n.allChildren, Sound i c) : Sound i n := by
  intro m hm
  rw [Node.preorder_eq, List.mem_cons, Node.preorderAll_eq_flatMap, List.mem_flatMap] at hm
  rcases hm with rfl | ⟨c, hcn, hm⟩
  · exact h
  · exact hc c hcn m hm

theorem IsPiece.sound {i : Input} {n : Node} (h : IsPiece i n) (hs : n.span.stop ≤ i.chars.size) :
    Sound i n := by
  have hkind : n.kind ≠ .program ∧ n.kind.isRemark = false ∧ n.kind ≠ .templateString ∧
      n.kind.hasParts = false := by
    rcases h.cases with ⟨hk, -⟩ | ⟨hk, -⟩ <;> rw [hk] <;> exact ⟨nofun, rfl, nofun, rfl⟩
  refine .of_children ⟨h.nonempty, hs, ?_, hkind.1, hkind.2.1, ?_, ?_,
    fun hk => absurd hk hkind.2.2.1, ?_, .of_not_hasParts hkind.2.2.2 fun _ => ?_⟩ ?_ <;>
    rw [h.leaf]
  · trivial
  · nofun
  · nofun
  · nofun
  · rfl
  · nofun

/-- What covers a stretch of text lies in it one after the other. -/
theorem Covers.row {i : Input} {b : Nat} : ∀ {a : Nat} {ns : List Node}, Covers i a ns b →
    (∀ n ∈ ns, n.span.start < n.span.stop) → a ≤ b ∧ Row a ns b
  | _, [], h, _ => ⟨Nat.le_of_eq h, trivial⟩
  | _, n :: ns, h, hn => by
    have hlt := hn n List.mem_cons_self
    obtain ⟨hle, hrow⟩ := h.2.2.row fun n hm => hn n (List.mem_cons_of_mem _ hm)
    have := h.1
    exact ⟨by omega, Nat.le_of_eq h.1.symm, hle, hrow⟩

/-- A sound tree that may stand anywhere, not in a JSX element alone. -/
structure Whole (i : Input) (n : Node) : Prop where
  sound : Sound i n
  string : n.kind = .string → IsString i n

/-- The kinds of node that stand for a construct inside a program, and not for a text. -/
def isConstruct (k : Kind) : Bool :=
  k != .program && !k.isRemark && k != .string && k != .templateString

/-- The kinds of construct to which no scope can belong and that are no imports. -/
def isPlain (k : Kind) : Bool := isConstruct k && !k.opensScope && !k.isImport

/-- Nothing is asked of a node with these children that is not asked of every node. -/
def isFree (k : Kind) (ch : List Node) : Bool :=
  isPlain k && !k.hasParts && (!k.isName || ch.isEmpty)

theorem has_of_isFree {k : Kind} {ch : List Node} (h : isFree k ch = true) :
    k.Has (ch.map Node.part) := by
  simp only [isFree, Bool.and_eq_true, Bool.not_eq_true', Bool.or_eq_true, List.isEmpty_iff] at h
  refine .of_not_hasParts h.1.2 fun hk => ?_
  rcases h.2 with hn | rfl
  · exact absurd hk (by simp [hn])
  · rfl

theorem whole_leaf {i : Input} {r : Role} {k : Kind} {s : Span} (hk : isFree k [] = true)
    (hs : s.start < s.stop) (hi : s.stop ≤ i.chars.size) : Whole i (.mk r k s []) := by
  have hparts := has_of_isFree hk
  simp only [isFree, isPlain, isConstruct, Bool.and_eq_true, bne_iff_ne, Bool.not_eq_true'] at hk
  obtain ⟨⟨⟨⟨⟨⟨⟨hp, hc⟩, hs'⟩, ht⟩, -⟩, -⟩, -⟩, -⟩ := hk
  exact ⟨.of_children ⟨hs, hi, trivial, hp, hc, nofun, nofun, fun h => absurd h ht, nofun, hparts⟩
    nofun, fun h => absurd h hs'⟩

theorem Whole.within {i : Input} {n : Node} (h : Whole i n) : n.span.stop ≤ i.chars.size :=
  (h.sound n n.mem_preorder_self).within

theorem Whole.nonempty {i : Input} {n : Node} (h : Whole i n) : n.span.start < n.span.stop :=
  (h.sound n n.mem_preorder_self).nonempty

/-- What has been cut up from the first quote to the last is a string. -/
theorem whole_string {i : Input} {a b : Nat} {ns : List Node} (hc : Covers i (a + 1) ns b)
    (hp : ∀ c ∈ ns, IsPiece i c) (hb : b < i.chars.size) :
    Whole i (.mk .none .string ⟨a, b + 1⟩ ns) := by
  have hn : ∀ c ∈ ns, c.span.start < c.span.stop := fun c hc => (hp c hc).nonempty
  obtain ⟨hle, hrow⟩ := hc.row hn
  refine ⟨.of_children ?_ fun c hc => (hp c hc).sound ?_, fun _ => ⟨⟨?_, hc⟩, hp⟩⟩
  · exact {
      nonempty := by simp only [Node.span]; omega
      within := hb
      row := hrow.mono (Nat.le_succ a) (Nat.le_succ b)
      kind := nofun
      comment := rfl
      smaller := nofun
      strings := fun c hc hk => by
        rcases (hp c hc).cases with ⟨h, -⟩ | ⟨h, -⟩ <;> rw [h] at hk <;> cases hk
      template := nofun
      source := nofun
      parts := nofun }
  · have := (hrow.mem_le hn c hc).2
    omega
  · simp only [Node.span]
    omega

/-- What has been cut up from one backtick to the other, but for its substitutions, is a template. -/
theorem whole_template {i : Input} {a b : Nat} {ns : List Node} (ho : i.char a = 96)
    (hc : Covers i (a + 1) ns b) (hw : ∀ c ∈ ns, Whole i c) (hb : i.char b = 96) :
    Whole i (.mk .none .templateString ⟨a, b + 1⟩ ns) := by
  obtain ⟨hle, hrow⟩ := hc.row fun c hc => (hw c hc).nonempty
  have hlt := Input.lt_size_of_char_eq (by decide) hb
  refine ⟨.of_children ?_ fun c hc => (hw c hc).sound, nofun⟩
  exact {
    nonempty := by simp only [Node.span]; omega
    within := hlt
    row := hrow.mono (Nat.le_succ a) (Nat.le_succ b)
    kind := nofun
    comment := rfl
    smaller := nofun
    strings := fun c hc hk => .inr ((hw c hc).string hk)
    template := fun _ => ⟨⟨by simp only [Node.span]; omega, hc⟩, ho, hb⟩
    source := nofun
    parts := nofun }

/-- The node in no role. -/
abbrev plain (n : Node) : Node := n.withRole .none

@[simp] theorem span_mk (r : Role) (k : Kind) (s : Span) (cs : List Node) :
    (Node.mk r k s cs).span = s := rfl

@[simp] theorem kind_mk (r : Role) (k : Kind) (s : Span) (cs : List Node) :
    (Node.mk r k s cs).kind = k := rfl

@[simp] theorem plain_withRole (r : Role) (n : Node) : plain (n.withRole r) = plain n := by
  obtain ⟨_, _, _, _⟩ := n
  rfl

@[simp] theorem map_plain_map_withRole (r : Role) (l : List Node) :
    (l.map fun n => n.withRole r).map plain = l.map plain := by
  rw [List.map_map]
  exact List.map_congr_left fun n _ => plain_withRole r n

@[simp] theorem map_plain_toList_withRole (r : Role) (o : Option Node) :
    (o.map fun n => n.withRole r).toList.map plain = o.toList.map plain := by
  cases o <;> simp

section Roles

variable {i : Input} {n : Node}

@[simp] theorem span_withRole (r : Role) (n : Node) : (n.withRole r).span = n.span := by
  obtain ⟨_, _, _, _⟩ := n
  rfl

@[simp] theorem kind_withRole (r : Role) (n : Node) : (n.withRole r).kind = n.kind := by
  obtain ⟨_, _, _, _⟩ := n
  rfl

@[simp] theorem part_withRole (r : Role) (n : Node) : (n.withRole r).part = (r, n.kind) := by
  obtain ⟨_, _, _, _⟩ := n
  rfl

theorem has_call {f args : Node} (ts : List Node) (h : ∀ t ∈ ts, t.part = (.none, .typeArguments)) :
    Kind.callExpression.Has
      ((f.withRole .function :: ts ++ [args.withRole .arguments]).map Node.part) :=
  ⟨f.kind, ts.map Node.part, args.kind, by simp, List.forall_mem_map.2 h⟩

theorem has_member {o : Node} (names : List Node) (h : ∀ n ∈ names, n.kind.isName = true) :
    Kind.memberExpression.Has
      ((o.withRole .object :: names.map fun n => n.withRole .property).map Node.part) := by
  refine ⟨o.kind, names.map fun n => (.property, n.kind), by simp, fun n hn => ?_⟩
  obtain ⟨m, hm, rfl⟩ := List.mem_map.1 hn
  exact h m hm

@[simp] theorem allChildren_withRole (r : Role) (n : Node) :
    (n.withRole r).allChildren = n.allChildren := by
  obtain ⟨_, _, _, _⟩ := n
  rfl

theorem IsString.withRole (h : IsString i n) (r : Role) : IsString i (n.withRole r) := by
  obtain ⟨_, _, _, _⟩ := n
  exact ⟨⟨h.quotes, h.inside⟩, h.pieces⟩

theorem Good.withRole (h : Good i n) (r : Role) : Good i (n.withRole r) := by
  obtain ⟨_, _, _, _⟩ := n
  exact ⟨h.nonempty, h.within, h.row, h.kind, h.comment, h.smaller, h.strings,
    fun hk => have ht := h.template hk
      ⟨⟨ht.quotes, ht.inside⟩, ht.opened, ht.closed⟩, h.source, h.parts⟩

theorem Sound.withRole (h : Sound i n) (r : Role) : Sound i (n.withRole r) := by
  intro m hm
  rw [Node.preorder_eq, List.mem_cons] at hm
  rcases hm with rfl | hm
  · exact (h n n.mem_preorder_self).withRole r
  · rw [allChildren_withRole] at hm
    exact h m (by rw [Node.preorder_eq]; exact List.mem_cons_of_mem _ hm)

theorem Whole.withRole (h : Whole i n) (r : Role) : Whole i (n.withRole r) :=
  ⟨h.sound.withRole r, fun hk => (h.string (by simpa using hk)).withRole r⟩

theorem Whole.of_plain (h : Whole i (plain n)) : Whole i n := by
  have := h.withRole n.role
  obtain ⟨_, _, _, _⟩ := n
  exact this

/-- Whether nodes are in a row is a matter of their spans. -/
theorem row_of_span_eq {b : Nat} : ∀ {a : Nat} {ns ms : List Node},
    ms.map Node.span = ns.map Node.span → Row a ns b → Row a ms b
  | _, [], [], _, _ => trivial
  | _, n :: ns, m :: ms, h, hr => by
    rw [List.map_cons, List.map_cons, List.cons.injEq] at h
    rw [Row, h.1]
    exact ⟨hr.1, hr.2.1, row_of_span_eq h.2 hr.2.2⟩

/-- Nodes that differ in their roles are as good as each other. -/
theorem row_of_plain_eq {a b : Nat} {ns ms : List Node} (h : ms.map plain = ns.map plain)
    (hr : Row a ns b) : Row a ms b := by
  refine row_of_span_eq ?_ hr
  have := congrArg (List.map Node.span) h
  rw [List.map_map, List.map_map] at this
  simpa [Function.comp_def] using this

theorem whole_of_plain_eq {ns ms : List Node} (h : ms.map plain = ns.map plain)
    (hw : ∀ n ∈ ns, Whole i n) : ∀ m ∈ ms, Whole i m := by
  intro m hm
  obtain ⟨n, hn, he⟩ := List.mem_map.1 (h ▸ List.mem_map_of_mem (f := plain) hm)
  exact .of_plain (he ▸ (hw n hn).withRole .none)

end Roles

end Grammar

end KeyTrace
