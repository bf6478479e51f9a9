/-
Trees without their comments.

A comment plays no role and has nothing below it. Taking all comments out of a
tree keeps what each node is, where it is, and what it is to its parent, so that
whatever looks at the children of a node by their roles, or past the comments,
finds the same. Two trees that differ in some comments are the same without any.
-/
import KeyTrace.Proofs.Syntax.Bare
import KeyTrace.Scope.Pattern

namespace KeyTrace

namespace Node

mutual

/-- The tree without the comments below its root. -/
def strip : Node → Node
  | .mk r k s cs => .mk r k s (stripAll cs)

/-- The trees of a list without the comments among and in them. -/
def stripAll : List Node → List Node
  | [] => []
  | c :: cs => if c.isPassed then stripAll cs else c.strip :: stripAll cs

end

/-- A comment in no role, with nothing below it. -/
def isAside (n : Node) : Bool := n.isPassed && n.allChildren.isEmpty

mutual

/-- The second tree is the first one without some of its comments. -/
inductive Loses : Node → Node → Prop
  | mk {r : Role} {k : Kind} {s : Span} {cs cs' : List Node} :
      LosesAll cs cs' → Loses (.mk r k s cs) (.mk r k s cs')

/-- The trees of the second list are those of the first without some of the comments among and in
them. -/
inductive LosesAll : List Node → List Node → Prop
  | nil : LosesAll [] []
  | keep {c c' : Node} {cs cs' : List Node} : Loses c c' → LosesAll cs cs' →
      LosesAll (c :: cs) (c' :: cs')
  | drop {c : Node} {cs cs' : List Node} : c.isAside = true → LosesAll cs cs' →
      LosesAll (c :: cs) cs'

end

variable {n n' c : Node}

theorem stripAll_eq (l : List Node) :
    stripAll l = (l.filter fun c => !c.isPassed).map strip := by
  induction l with
  | nil => rfl
  | cons c l ih =>
    rw [stripAll, List.filter_cons, ih]
    cases c.isPassed <;> rfl

@[simp] theorem role_strip (n : Node) : n.strip.role = n.role := by
  obtain ⟨_, _, _, _⟩ := n
  rfl

@[simp] theorem kind_strip (n : Node) : n.strip.kind = n.kind := by
  obtain ⟨_, _, _, _⟩ := n
  rfl

@[simp] theorem span_strip (n : Node) : n.strip.span = n.span := by
  obtain ⟨_, _, _, _⟩ := n
  rfl

theorem allChildren_strip (n : Node) : n.strip.allChildren = stripAll n.allChildren := by
  obtain ⟨_, _, _, _⟩ := n
  rfl

@[simp] theorem key_strip (n : Node) : n.strip.key = n.key := by
  rw [key, key, span_strip, kind_strip]

@[simp] theorem shape_strip (n : Node) : n.strip.shape = n.shape := by
  rw [shape, shape, kind_strip]

@[simp] theorem isComment_strip (n : Node) : n.strip.isComment = n.isComment := by
  rw [isComment, isComment, kind_strip]

@[simp] theorem text_strip (n : Node) (s : Source) : n.strip.text s = n.text s := by
  rw [text, text, span_strip]

theorem isComment_of_isPassed (h : n.isPassed = true) : n.isComment = true :=
  (Bool.and_eq_true_iff.1 h).1

theorem role_of_isPassed (h : n.isPassed = true) : n.role = .none :=
  eq_of_beq (Bool.and_eq_true_iff.1 h).2

/-- What is picked among the parts of a list without its comments is what is picked among all, if no
comment is picked. -/
theorem filter_stripAll {f : Node → Bool} (hf : ∀ c, c.isPassed = true → f c = false)
    (hstrip : ∀ c, f c.strip = f c) (l : List Node) :
    (stripAll l).filter f = (l.filter f).map strip := by
  rw [stripAll_eq, List.filter_map, List.filter_filter]
  congr 1
  refine List.filter_congr fun c _ => ?_
  rw [Function.comp_apply, hstrip]
  cases ha : c.isPassed with
  | true => rw [hf c ha, Bool.false_and]
  | false => rw [Bool.not_false, Bool.and_true]

@[simp] theorem children_strip (n : Node) : n.strip.children = n.children.map strip := by
  rw [children, allChildren_strip, filter_stripAll (fun c hc => by simp [isComment_of_isPassed hc])
    (fun c => by rw [isComment_strip])]
  rfl

theorem child?_strip (n : Node) {r : Role} (hr : r ≠ .none) :
    n.strip.child? r = (n.child? r).map strip := by
  have hfirst {f : Node → Bool} (l : List Node) : l.find? f = (l.filter f).head? := by
    rw [List.head?_filter]
  rw [child?, child?, allChildren_strip, hfirst, hfirst, filter_stripAll, List.head?_map]
  · intro c hc
    rw [role_of_isPassed hc]
    simpa using Ne.symm hr
  · exact fun c => by rw [role_strip]

@[simp] theorem firstChild?_strip (n : Node) : n.strip.firstChild? = n.firstChild?.map strip := by
  rw [firstChild?, firstChild?, children_strip, List.head?_map]

theorem wrapped?_strip (n : Node) : n.strip.wrapped? = n.wrapped?.map strip := by
  rw [wrapped?, wrapped?, kind_strip, children_strip, List.getLast?_map, List.head?_map]
  split <;> rfl

/-- Under the wrappers of a tree without comments is what is under those of the tree. -/
theorem unwrap?_strip (n : Node) : n.strip.unwrap? = n.unwrap?.map strip := by
  rw [unwrap?_eq, unwrap?_eq, shape_strip, wrapped?_strip]
  split
  · cases hc : n.wrapped? with
    | none => rfl
    | some c =>
      have := sizeOf_lt (mem_of_wrapped? hc)
      exact unwrap?_strip c
  · rfl
termination_by sizeOf n

@[simp] theorem callArguments?_strip (n : Node) :
    n.strip.callArguments? = n.callArguments?.map (List.map strip) := by
  rw [callArguments?, callArguments?, child?_strip n (by decide)]
  cases n.child? .arguments with
  | none => rfl
  | some a =>
    rw [Option.map_some]
    dsimp only
    rw [kind_strip, children_strip]
    split <;> rfl

section Meaning

variable (s : Source)

theorem gaps_stripAll (stop : Nat) : ∀ (l : List Node) (cursor : Nat),
    gaps s stop cursor (stripAll l) = gaps s stop cursor l
  | [], _ => rfl
  | c :: l, cursor => by
    rw [stripAll, gaps]
    by_cases hp : c.isPassed = true
    · have hk : c.kind ≠ .templateSubstitution := by
        have := isComment_of_isPassed hp
        simp only [isComment, beq_iff_eq] at this
        simp [this]
      rw [if_pos hp, if_neg hk, gaps_stripAll stop l]
    · rw [if_neg hp, gaps, kind_strip, span_strip]
      split
      · rw [gaps_stripAll stop l]
      · exact gaps_stripAll stop l cursor

theorem texts_strip (n : Node) : texts s n.strip = texts s n := by
  rw [texts, texts, kind_strip, span_strip, text_strip, allChildren_strip, gaps_stripAll]

theorem placed_strip (n : Node) (o : Option Bare) : placed n.strip o = placed n o := by
  cases o with
  | none => rw [placed, placed, role_strip]
  | some b => rw [placed, placed, role_strip, shape_strip]

mutual

/-- An expression says the same without comments. -/
theorem core_strip : ∀ n : Node, core s n.strip = core s n
  | .mk r k span cs => by
    have ht := texts_strip s (.mk r k span cs)
    rw [strip] at ht ⊢
    rw [core, core, coreLast_strip cs, coreFirst_strip cs, bareAll_strip cs, ht]

theorem coreFirst_strip : ∀ l : List Node, coreFirst s (stripAll l) = coreFirst s l
  | [] => rfl
  | c :: l => by
    rw [stripAll, coreFirst]
    by_cases hp : c.isPassed = true
    · rw [if_pos hp, if_pos (isComment_of_isPassed hp), coreFirst_strip l]
    · rw [if_neg hp, coreFirst, isComment_strip, core_strip c, coreFirst_strip l]

theorem coreLast_strip : ∀ (l : List Node) (found : Option Bare),
    coreLast s (stripAll l) found = coreLast s l found
  | [], _ => rfl
  | c :: l, found => by
    rw [stripAll, coreLast]
    by_cases hp : c.isPassed = true
    · rw [if_pos hp, if_pos (isComment_of_isPassed hp), coreLast_strip l]
    · rw [if_neg hp, coreLast, isComment_strip, core_strip c, coreLast_strip l]

theorem bareAll_strip : ∀ l : List Node, bareAll s (stripAll l) = bareAll s l
  | [] => rfl
  | c :: l => by
    rw [stripAll, bareAll]
    by_cases hp : c.isPassed = true
    · rw [if_pos hp, if_pos hp, bareAll_strip l]
    · have hp' : c.strip.isPassed ≠ true := by
        rwa [isPassed, isComment_strip, role_strip]
      rw [if_neg hp, if_neg hp, bareAll, if_neg hp', placed_strip, core_strip c, bareAll_strip l]

end

theorem coreOf_strip (n : Option Node) : coreOf s (n.map strip) = coreOf s n := by
  cases n with
  | none => rfl
  | some n => exact core_strip s n

end Meaning

/-- Without some of its comments, a node is what it was. -/
theorem Loses.top (h : Loses n n') : n.role = n'.role ∧ n.kind = n'.kind ∧ n.span = n'.span := by
  cases h
  exact ⟨rfl, rfl, rfl⟩

mutual

/-- Trees that differ in comments are the same without any. -/
theorem Loses.strip_eq : ∀ {n n' : Node}, Loses n n' → n.strip = n'.strip
  | .mk _ _ _ _, .mk _ _ _ _, .mk h => by rw [strip, strip, h.stripAll_eq]

theorem LosesAll.stripAll_eq : ∀ {l l' : List Node}, LosesAll l l' → stripAll l = stripAll l'
  | _, _, .nil => rfl
  | c :: l, c' :: l', .keep hc hl => by
    have hp : c.isPassed = c'.isPassed := by
      rw [isPassed, isPassed, isComment, isComment, hc.top.1, hc.top.2.1]
    rw [stripAll, stripAll, hp, hc.strip_eq, hl.stripAll_eq]
  | c :: l, l', .drop hc hl => by
    rw [stripAll, if_pos (Bool.and_eq_true_iff.1 hc).1, hl.stripAll_eq]

end

end Node

namespace Place

open Node (stripAll)

/-- The place in the tree without comments. -/
def strip (p : Place) : Place := ⟨p.node.strip, p.above.map Node.strip⟩

/-- The second place is the first one in a tree without some of the comments. -/
structure Loses (p p' : Place) : Prop where
  node : p.node.Loses p'.node
  above : List.Forall₂ Node.Loses p.above p'.above

theorem Loses.strip_eq {p p' : Place} (h : p.Loses p') : p.strip = p'.strip := by
  have habove : p.above.map Node.strip = p'.above.map Node.strip := by
    rw [← List.forall₂_eq_eq_eq, List.forall₂_map_left_iff, List.forall₂_map_right_iff]
    exact h.above.imp fun _ _ h => h.strip_eq
  rw [strip, strip, h.node.strip_eq, habove]

variable (p : Place)

@[simp] theorem node_strip : p.strip.node = p.node.strip := rfl

theorem up?_strip : p.strip.up? = p.up?.map strip := by
  obtain ⟨n, _ | ⟨a, as⟩⟩ := p <;> rfl

@[simp] theorem children_strip : p.strip.children = p.children.map strip := by
  rw [children, children, node_strip, Node.children_strip, List.map_map, List.map_map]
  rfl

theorem child?_strip {r : Role} (hr : r ≠ .none) : p.strip.child? r = (p.child? r).map strip := by
  rw [child?, child?, node_strip, Node.child?_strip _ hr, Option.map_map, Option.map_map]
  rfl

section Patterns

theorem peelStep?_strip (n : Node) : peelStep? n.strip = peelStep? n := by
  rw [peelStep?, peelStep?, Node.kind_strip]

theorem ne_none_of_peelStep? {n : Node} {r : Role} (h : peelStep? n = some r) : r ≠ .none := by
  unfold peelStep? at h
  split at h <;> cases h <;> decide

mutual

theorem peelOf_strip (above : List Node) :
    ∀ n : Node, peelOf (above.map Node.strip) n.strip = (peelOf above n).strip
  | .mk r k s cs => by
    have hstep := peelStep?_strip (.mk r k s cs)
    rw [Node.strip] at hstep ⊢
    rw [peelOf, peelOf, hstep]
    split
    · rfl
    · next role hrole =>
      have hchild := peelChild_strip (ne_none_of_peelStep? hrole) (.mk r k s cs :: above) cs
      rw [List.map_cons, Node.strip] at hchild
      rw [hchild]
      cases peelChild role (.mk r k s cs :: above) cs <;> rfl

theorem peelChild_strip {role : Role} (hr : role ≠ .none) (above : List Node) :
    ∀ l : List Node, peelChild role (above.map Node.strip) (stripAll l) =
      (peelChild role above l).map strip
  | [] => rfl
  | c :: l => by
    rw [stripAll, peelChild]
    by_cases hp : c.isPassed = true
    · rw [if_pos hp, peelChild_strip hr above l, if_neg (by
        rw [Node.role_of_isPassed hp]
        exact hr.symm)]
    · rw [if_neg hp, peelChild, Node.role_strip]
      split
      · rw [peelOf_strip above c, Option.map_some]
      · exact peelChild_strip hr above l

end

/-- The pattern of a parameter without comments. -/
theorem peel_strip : p.strip.peel = p.peel.strip := peelOf_strip p.above p.node

theorem ne_none_of_patternForm {k : Kind} {r : Role} (h : patternForm k = .child r) : r ≠ .none := by
  unfold patternForm at h
  split at h <;> cases h <;> decide

mutual

theorem namesOf_strip (above : List Node) :
    ∀ n : Node, namesOf (above.map Node.strip) n.strip = (namesOf above n).map strip
  | .mk r k s cs => by
    have hchild {role : Role} (hr : role ≠ .none) :=
      namesOfChild_strip hr (.mk r k s cs :: above) cs
    have hall := namesOfAll_strip (.mk r k s cs :: above) cs
    rw [List.map_cons, Node.strip] at hall
    simp only [List.map_cons, Node.strip] at hchild
    rw [Node.strip, namesOf, namesOf]
    cases hf : patternForm k with
    | name => rfl
    | child role => exact hchild (ne_none_of_patternForm hf)
    | all => exact hall
    | nothing => rfl

theorem namesOfChild_strip {role : Role} (hr : role ≠ .none) (above : List Node) :
    ∀ l : List Node, namesOfChild role (above.map Node.strip) (stripAll l) =
      (namesOfChild role above l).map strip
  | [] => rfl
  | c :: l => by
    rw [stripAll, namesOfChild]
    by_cases hp : c.isPassed = true
    · rw [if_pos hp, namesOfChild_strip hr above l, if_neg (by
        rw [Node.role_of_isPassed hp]
        exact hr.symm)]
    · rw [if_neg hp, namesOfChild, Node.role_strip]
      split
      · exact namesOf_strip above c
      · exact namesOfChild_strip hr above l

theorem namesOfAll_strip (above : List Node) :
    ∀ l : List Node, namesOfAll (above.map Node.strip) (stripAll l) = (namesOfAll above l).map strip
  | [] => rfl
  | c :: l => by
    rw [stripAll, namesOfAll]
    by_cases hp : c.isPassed = true
    · rw [if_pos hp, namesOfAll_strip above l, if_pos (Node.isComment_of_isPassed hp)]
    · rw [if_neg hp, namesOfAll, Node.isComment_strip]
      split
      · exact namesOfAll_strip above l
      · rw [namesOf_strip above c, namesOfAll_strip above l, List.map_append]

end

/-- The names of a pattern without comments. -/
theorem patternNames_strip : p.strip.patternNames = p.patternNames.map strip :=
  namesOf_strip p.above p.node

end Patterns

section Preorder

mutual

/-- The places of a tree that are no comments are those of the tree without some comments. -/
theorem loses_preorderOf {above above' : List Node} (ha : List.Forall₂ Node.Loses above above') :
    ∀ {n n' : Node}, n.Loses n' → List.Forall₂ Loses
      ((preorderOf above n).filter fun q => !q.node.isComment)
      ((preorderOf above' n').filter fun q => !q.node.isComment)
  | .mk r k s cs, .mk _ _ _ cs', .mk h => by
    have hn : Node.Loses (.mk r k s cs) (.mk r k s cs') := .mk h
    have hall := loses_preorderOfAll (.cons hn ha) h
    rw [preorderOf, preorderOf, List.filter_cons, List.filter_cons]
    dsimp only
    have hc : (Node.mk r k s cs).isComment = (Node.mk r k s cs').isComment := rfl
    rw [hc]
    split
    · exact .cons ⟨hn, ha⟩ hall
    · exact hall

theorem loses_preorderOfAll {above above' : List Node} (ha : List.Forall₂ Node.Loses above above') :
    ∀ {l l' : List Node}, Node.LosesAll l l' → List.Forall₂ Loses
      ((preorderOfAll above l).filter fun q => !q.node.isComment)
      ((preorderOfAll above' l').filter fun q => !q.node.isComment)
  | _, _, .nil => .nil
  | c :: l, c' :: l', .keep hc hl => by
    rw [preorderOfAll, preorderOfAll, List.filter_append, List.filter_append]
    exact List.rel_append (loses_preorderOf ha hc) (loses_preorderOfAll ha hl)
  | c :: l, l', .drop hc hl => by
    have hcs : c.allChildren = [] := List.isEmpty_iff.1 (Bool.and_eq_true_iff.1 hc).2
    have hcomment := Node.isComment_of_isPassed (Bool.and_eq_true_iff.1 hc).1
    rw [preorderOfAll, List.filter_append, preorderOf_eq, hcs, preorderOfAll,
      List.filter_cons_of_neg (by simp [hcomment]), List.filter_nil, List.nil_append]
    exact loses_preorderOfAll ha hl

end

end Preorder

end Place
end KeyTrace
