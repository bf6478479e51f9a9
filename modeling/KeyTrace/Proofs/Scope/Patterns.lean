/-
Which names a pattern binds.

A pattern is a name or is made of patterns; besides them it has parts that are none: the
keys of its pairs, its default values, and what stands beside the pattern of a parameter,
such as a type. The names of a pattern are the names in it that are in no such part.
-/
import KeyTrace.Proofs.Scope.Parameters
import KeyTrace.Proofs.Syntax.Comments
import Mathlib.Data.List.Chain

namespace KeyTrace

namespace Kind

/-- The kinds of name that a pattern may bind. -/
def isBinder : Kind → Bool
  | .identifier | .shorthandPropertyIdentifierPattern => true
  | _ => false

/-- The kinds of pattern whose children are all patterns. -/
def isGroup : Kind → Bool
  | .objectPattern | .arrayPattern | .restPattern => true
  | _ => false

/-- The kinds of pattern with a default value. -/
def hasDefault : Kind → Bool
  | .assignmentPattern | .objectAssignmentPattern => true
  | _ => false

/-- The kinds of parameter that a pattern is put in where parameters have types. -/
def isParameter : Kind → Bool
  | .requiredParameter | .optionalParameter => true
  | _ => false

end Kind

namespace Node

/-- The children of a node but for comments. -/
def constituents (n : Node) : List Node := n.allChildren.filter fun c => !c.isPassed

/-- A child of a pattern is no pattern in it: it is the key of a pair, a default value, or stands
beside the pattern of a parameter. -/
def isExtra (n c : Node) : Bool :=
  match n.kind with
  | .pairPattern => c.role == .key
  | .assignmentPattern | .objectAssignmentPattern => c.role == .right
  | .requiredParameter | .optionalParameter => c.role != .pattern
  | _ => false

/-- A child of a pattern is a comment or no pattern in it. -/
def isBeside (n c : Node) : Bool := c.isPassed || n.isExtra c

/-- The node is a binding pattern. -/
inductive IsPattern : Node → Prop
  | name {n : Node} (hk : n.kind.isBinder = true) (hleaf : n.allChildren = []) : IsPattern n
  | group {n : Node} (hk : n.kind.isGroup = true) (h : ∀ c ∈ n.constituents, IsPattern c) : IsPattern n
  | pair {n key value : Node} (hk : n.kind = .pairPattern) (hparts : n.constituents = [key, value])
      (hkey : key.role = .key) (hvalue : value.role = .value) (h : IsPattern value) : IsPattern n
  | default {n target value : Node} (hk : n.kind.hasDefault = true)
      (hparts : n.constituents = [target, value]) (htarget : target.role = .left)
      (hvalue : value.role = .right) (h : IsPattern target) : IsPattern n
  | parameter {n target : Node} {before after : List Node} (hk : n.kind.isParameter = true)
      (hparts : n.constituents = before ++ target :: after) (htarget : target.role = .pattern)
      (hbefore : ∀ c ∈ before, c.role ≠ .pattern) (hafter : ∀ c ∈ after, c.role ≠ .pattern)
      (h : IsPattern target) : IsPattern n

/-- The node is a name, but for parameters and default values around it. -/
inductive IsSingle : Node → Prop
  | name {n : Node} (hk : n.kind = .identifier) : IsSingle n
  | parameter {n target : Node} (hk : n.kind.isParameter = true)
      (htarget : n.child? .pattern = some target) (h : IsSingle target) : IsSingle n
  | default {n target : Node} (hk : n.kind = .assignmentPattern)
      (htarget : n.child? .left = some target) (h : IsSingle target) : IsSingle n

theorem IsPattern.isComment {n : Node} (h : n.IsPattern) : n.isComment = false := by
  have hne : n.kind ≠ .comment := by
    intro hc
    cases h with
    | name hk | group hk | pair hk | default hk | parameter hk => rw [hc] at hk; cases hk
  exact beq_false_of_ne hne

theorem child?_eq_find?_constituents (n : Node) {r : Role} (hr : r ≠ .none) :
    n.child? r = n.constituents.find? fun c => c.role == r := by
  rw [child?, constituents, List.find?_filter]
  congr 1
  funext c
  by_cases h : c.role = r
  · simp [h, hr, isPassed]
  · simp [h]

theorem filter_isBeside (n : Node) :
    (n.allChildren.filter fun c => !n.isBeside c) = n.constituents.filter fun c => !n.isExtra c := by
  rw [constituents, List.filter_filter]
  simp only [isBeside, Bool.not_or, Bool.and_comm]

theorem isExtra_of_isGroup {n : Node} (hk : n.kind.isGroup = true) (c : Node) :
    n.isExtra c = false := by
  unfold Kind.isGroup at hk
  unfold isExtra
  split at hk
  case h_4 => cases hk
  all_goals next hn => simp only [hn]

theorem isExtra_of_hasDefault {n : Node} (hk : n.kind.hasDefault = true) (c : Node) :
    n.isExtra c = (c.role == .right) := by
  unfold Kind.hasDefault at hk
  unfold isExtra
  split at hk
  case h_3 => cases hk
  all_goals next hn => simp only [hn]

theorem isExtra_of_isParameter {n : Node} (hk : n.kind.isParameter = true) (c : Node) :
    n.isExtra c = (c.role != .pattern) := by
  unfold Kind.isParameter at hk
  unfold isExtra
  split at hk
  case h_3 => cases hk
  all_goals next hn => simp only [hn]

end Node

namespace Place

open Node

/-- The nodes from a place up to one above it. -/
def pathTo (p q : Place) : List Node := q.chain.take (q.chain.length - p.above.length)

/-- On the way from a place up to a pattern, nothing stands beside the patterns around it. -/
def isPartOf (q p : Place) : Bool := (p.pathTo q).IsChain fun c n => n.isBeside c = false

/-- The names in a pattern that are in no key, no default value and no type. -/
def boundIn (p : Place) : List Place :=
  p.preorder.filter fun q => q.node.kind.isBinder && q.isPartOf p

theorem preorderOfAll_eq_flatMap (above l : List Node) :
    preorderOfAll above l = l.flatMap (preorderOf above) := by
  induction l with
  | nil => rfl
  | cons c l ih => rw [preorderOfAll, ih, List.flatMap_cons]

theorem pathTo_of_chain {p q : Place} {path : List Node} (h : q.chain = path ++ p.above) :
    p.pathTo q = path := by
  rw [pathTo, h, List.length_append, Nat.add_sub_cancel]
  exact List.take_left

theorem exists_chain_eq {above : List Node} {n : Node} {q : Place} (h : q ∈ preorderOf above n) :
    ∃ path, q.chain = path ++ n :: above := by
  rw [preorderOf_eq, List.mem_cons] at h
  rcases h with rfl | h
  · exact ⟨[], rfl⟩
  · obtain ⟨path, hpath⟩ := suffix_above_of_memAll h
    exact ⟨q.node :: path, by rw [chain, ← hpath, List.cons_append]⟩

theorem isPartOf_self (p : Place) : p.isPartOf p = true := by
  have hpath : p.pathTo p = [p.node] := pathTo_of_chain rfl
  rw [isPartOf, hpath]
  exact decide_eq_true (List.isChain_singleton _)

/-- A place below a child of a pattern is part of the pattern if it is part of the child, and the
child is not beside. -/
theorem isPartOf_up {above : List Node} {n c : Node} {q : Place} (h : q ∈ preorderOf (n :: above) c) :
    q.isPartOf ⟨n, above⟩ = (!n.isBeside c && q.isPartOf ⟨c, n :: above⟩) := by
  obtain ⟨path, hchain⟩ := exists_chain_eq h
  have hup : (⟨n, above⟩ : Place).pathTo q = path ++ [c, n] := pathTo_of_chain (by simp [hchain])
  have hdown : (⟨c, n :: above⟩ : Place).pathTo q = path ++ [c] := pathTo_of_chain (by simp [hchain])
  rw [isPartOf, isPartOf, hup, hdown, ← Bool.decide_coe (!n.isBeside c), ← Bool.decide_and]
  refine decide_eq_decide.2 ?_
  rw [List.isChain_append_cons_cons, Bool.not_eq_true']
  exact ⟨fun ⟨h, hc, _⟩ => ⟨hc, h⟩, fun ⟨hc, h⟩ => ⟨h, hc, List.isChain_singleton n⟩⟩

theorem isPartOf_of_isBeside {p m q : Place} {c : Node} (hm : m ∈ p.preorder)
    (hb : m.node.isBeside c = true) (hq : q ∈ (m.down c).preorder) : q.isPartOf p = false := by
  obtain ⟨outer, houter⟩ := exists_chain_eq hm
  obtain ⟨inner, hinner⟩ := exists_chain_eq hq
  have hpath : p.pathTo q = inner ++ c :: (outer ++ [p.node]) := by
    refine pathTo_of_chain ?_
    rw [hinner, show m.down c = ⟨c, m.chain⟩ from rfl, houter]
    simp
  -- The node right above the child on that way is the one it is beside.
  have hhead : (outer ++ [p.node]).head? = some m.node := by
    have h := congrArg List.head? houter
    rw [chain, List.head?_cons] at h
    cases outer <;> exact h.symm
  refine decide_eq_false fun h => ?_
  rw [hpath, List.isChain_append] at h
  obtain ⟨rest, hrest⟩ := List.head?_eq_some_iff.1 hhead
  rw [hrest, List.isChain_cons_cons] at h
  exact absurd hb (Bool.eq_false_iff.1 h.2.1.1)

/-- The names bound in a pattern are the pattern itself, if it is a name, and those bound in its
children that do not stand beside. -/
theorem boundIn_eq (above : List Node) (n : Node) :
    boundIn ⟨n, above⟩ = (if n.kind.isBinder then [⟨n, above⟩] else []) ++
      (n.allChildren.filter fun c => !n.isBeside c).flatMap fun c => boundIn ⟨c, n :: above⟩ := by
  rw [boundIn, preorder, preorderOf_eq, List.filter_cons, isPartOf_self, Bool.and_true,
    preorderOfAll_eq_flatMap, List.filter_flatMap]
  have hbelow : (n.allChildren.flatMap fun c => (preorderOf (n :: above) c).filter fun q =>
      q.node.kind.isBinder && q.isPartOf ⟨n, above⟩) =
      (n.allChildren.filter fun c => !n.isBeside c).flatMap fun c => boundIn ⟨c, n :: above⟩ := by
    induction n.allChildren with
    | nil => rfl
    | cons c l ih =>
      rw [List.flatMap_cons, ih, List.filter_cons]
      have hc := List.filter_congr fun q (hq : q ∈ preorderOf (n :: above) c) =>
        congrArg (q.node.kind.isBinder && ·) (isPartOf_up hq)
      rw [hc]
      cases n.isBeside c with
      | true => simp
      | false => simp [boundIn, preorder]
  rw [hbelow]
  cases n.kind.isBinder <;> rfl

theorem namesOfChild_eq (role : Role) (above : List Node) (l : List Node) :
    namesOfChild role above l = ((l.find? fun c => c.role == role).map (namesOf above)).getD [] := by
  induction l with
  | nil => rfl
  | cons c l ih =>
    rw [namesOfChild, List.find?_cons, ih]
    by_cases h : c.role = role
    · simp [h]
    · simp [h, beq_false_of_ne h]

theorem namesOfAll_eq (above : List Node) (l : List Node) :
    namesOfAll above l = (l.filter fun c => !c.isComment).flatMap (namesOf above) := by
  induction l with
  | nil => rfl
  | cons c l ih =>
    rw [namesOfAll, List.filter_cons, ih]
    cases c.isComment <;> simp

theorem namesOf_eq (above : List Node) (n : Node) : namesOf above n =
    match patternForm n.kind with
    | .name => [⟨n, above⟩]
    | .child role => ((n.child? role).map (namesOf (n :: above))).getD []
    | .all => n.children.flatMap (namesOf (n :: above))
    | .nothing => [] := by
  obtain ⟨r, k, s, cs⟩ := n
  rw [namesOf, show (Node.mk r k s cs).kind = k from rfl]
  cases patternForm k with
  | child role => exact namesOfChild_eq role _ cs
  | all => exact namesOfAll_eq _ cs
  | name | nothing => rfl

section Forms

variable {k : Kind}

theorem patternForm_of_isBinder (hk : k.isBinder = true) : patternForm k = .name := by
  unfold Kind.isBinder at hk
  split at hk
  case h_3 => cases hk
  all_goals rfl

theorem patternForm_of_isGroup (hk : k.isGroup = true) :
    patternForm k = .all ∧ k.isBinder = false := by
  unfold Kind.isGroup at hk
  split at hk
  case h_4 => cases hk
  all_goals exact ⟨rfl, rfl⟩

theorem patternForm_of_hasDefault (hk : k.hasDefault = true) :
    patternForm k = .child .left ∧ k.isBinder = false := by
  unfold Kind.hasDefault at hk
  split at hk
  case h_3 => cases hk
  all_goals exact ⟨rfl, rfl⟩

theorem patternForm_of_isParameter (hk : k.isParameter = true) :
    patternForm k = .child .pattern ∧ k.isBinder = false := by
  unfold Kind.isParameter at hk
  split at hk
  case h_3 => cases hk
  all_goals exact ⟨rfl, rfl⟩

end Forms

/-- A pattern that another one is put in binds the names of that one. -/
theorem namesOf_eq_boundIn_of_only {n target : Node} {role : Role} (hk : n.kind.isBinder = false)
    (hform : patternForm n.kind = .child role) (hrole : role ≠ .none)
    (hchild : n.constituents.find? (fun c => c.role == role) = some target)
    (hextra : (n.constituents.filter fun c => !n.isExtra c) = [target])
    (ih : ∀ above, namesOf above target = boundIn ⟨target, above⟩) (above : List Node) :
    namesOf above n = boundIn ⟨n, above⟩ := by
  rw [← child?_eq_find?_constituents n hrole] at hchild
  have hnames : namesOf above n = namesOf (n :: above) target := by
    rw [namesOf_eq above n, hform]
    simp only [hchild, Option.map_some, Option.getD_some]
  rw [hnames, ih, boundIn_eq above n, hk, filter_isBeside, hextra]
  simp

/-- The names of a pattern are those that are bound in it. -/
theorem namesOf_eq_boundIn {n : Node} (h : n.IsPattern) :
    ∀ above, namesOf above n = boundIn ⟨n, above⟩ := by
  induction h with
  | @name n hk hleaf =>
    intro above
    rw [boundIn_eq, hk, hleaf, namesOf_eq, patternForm_of_isBinder hk]
    rfl
  | @group n hk h ih =>
    intro above
    have hform := patternForm_of_isGroup hk
    have hparts : n.children = n.constituents := by
      refine List.filter_congr fun c hc => ?_
      cases hp : c.isPassed with
      | true => rw [isComment_of_isPassed hp]
      | false =>
        have hmem : c ∈ n.constituents := List.mem_filter.2 ⟨hc, by simp [hp]⟩
        rw [(h c hmem).isComment]
    have hextra : (n.constituents.filter fun c => !n.isExtra c) = n.constituents :=
      List.filter_eq_self.2 fun c _ => by simp [isExtra_of_isGroup hk]
    rw [namesOf_eq, hform.1, hparts, boundIn_eq, hform.2, filter_isBeside, hextra]
    exact List.flatMap_congr fun c hc => ih c hc (n :: above)
  | @pair n key value hk hparts hkey hvalue h ih =>
    have hform : patternForm n.kind = .child .value := by rw [hk]; rfl
    refine namesOf_eq_boundIn_of_only (by rw [hk]; rfl) hform nofun ?_ ?_ ih
    · simp [hparts, hkey, hvalue]
    · simp [hparts, isExtra, hk, hkey, hvalue]
  | @default n target value hk hparts htarget hvalue h ih =>
    have hform := patternForm_of_hasDefault hk
    refine namesOf_eq_boundIn_of_only hform.2 hform.1 nofun ?_ ?_ ih
    · simp [hparts, htarget]
    · simp [hparts, isExtra_of_hasDefault hk, htarget, hvalue]
  | @parameter n target before after hk hparts htarget hbefore hafter h ih =>
    have hform := patternForm_of_isParameter hk
    refine namesOf_eq_boundIn_of_only hform.2 hform.1 nofun ?_ ?_ ih
    · rw [hparts, List.find?_append, List.find?_eq_none.2 (by simpa using hbefore)]
      simp [htarget]
    · have hnone : ∀ l : List Node, (∀ c ∈ l, c.role ≠ .pattern) →
          (l.filter fun c => !n.isExtra c) = [] := fun l hl =>
        List.filter_eq_nil_iff.2 fun c hc => by simp [isExtra_of_isParameter hk, hl c hc]
      rw [hparts, List.filter_append, List.filter_cons, hnone before hbefore, hnone after hafter]
      simp [isExtra_of_isParameter hk, htarget]

theorem peelChild_eq (role : Role) (above : List Node) (l : List Node) :
    peelChild role above l = (l.find? fun c => c.role == role).map (peelOf above) := by
  induction l with
  | nil => rfl
  | cons c l ih =>
    rw [peelChild, List.find?_cons, ih]
    by_cases h : c.role = role
    · simp [h]
    · simp [h, beq_false_of_ne h]

theorem peelOf_eq (above : List Node) (n : Node) :
    peelOf above n = (((peelStep? n).bind n.child?).map (peelOf (n :: above))).getD ⟨n, above⟩ := by
  obtain ⟨r, k, s, cs⟩ := n
  rw [peelOf]
  cases peelStep? (.mk r k s cs) with
  | none => rfl
  | some role =>
    change (peelChild role (.mk r k s cs :: above) cs).getD _ = _
    rw [peelChild_eq]
    rfl

theorem isSingle_iff (n : Node) : n.IsSingle ↔
    n.kind = .identifier ∨ ∃ target, (peelStep? n).bind n.child? = some target ∧ target.IsSingle := by
  constructor
  · intro h
    cases h with
    | name hk => exact .inl hk
    | parameter hk htarget h =>
      refine .inr ⟨_, ?_, h⟩
      unfold Kind.isParameter at hk
      split at hk
      case h_3 => cases hk
      all_goals next hn => simpa [peelStep?, hn] using htarget
    | default hk htarget h => exact .inr ⟨_, by simpa [peelStep?, hk] using htarget, h⟩
  · rintro (hk | ⟨target, htarget, h⟩)
    · exact .name hk
    · unfold peelStep? at htarget
      split at htarget
      case h_1 hn | h_2 hn => exact .parameter (by rw [hn]; rfl) htarget h
      case h_3 hn => exact .default hn htarget h
      case h_4 => cases htarget

theorem kind_peelOf_iff (n : Node) :
    ∀ above, (peelOf above n).node.kind = .identifier ↔ n.IsSingle := by
  induction n using Node.induct with
  | h n ih =>
    intro above
    rw [peelOf_eq, isSingle_iff]
    cases hc : (peelStep? n).bind n.child? with
    | none => simp
    | some target =>
      obtain ⟨role, hrole, htarget⟩ := Option.bind_eq_some_iff.1 hc
      have hk : n.kind ≠ .identifier := (patternForm_of_peelStep? hrole).2
      have hmem : target ∈ n.allChildren := List.mem_of_find?_eq_some htarget
      simpa [hk] using ih target hmem (n :: above)

/-- A parameter is bound simply exactly if it is a single name. -/
theorem simple_iff (p : Place) :
    (p.patternNames.length == 1 && p.peel.node.kind == .identifier) = true ↔ p.node.IsSingle := by
  rw [← kind_peelOf_iff p.node p.above, Bool.and_eq_true, beq_iff_eq, beq_iff_eq]
  refine and_iff_right_of_imp fun h => ?_
  rw [patternNames_of_peel h]
  rfl

/-- **Patterns bind exactly their names.** Of a pattern, the names in it are bound that are in no
key, no default value and no type, in the order they stand in, each place once; and a parameter,
whatever it is, binds its names as simple ones exactly if it is a single name but for types and
default values. -/
theorem names_of_pattern (p : Place) :
    (p.node.IsPattern →
      p.patternNames = p.preorder.filter (fun q => q.node.kind.isBinder && q.isPartOf p) ∧
      ∀ m ∈ p.preorder, ∀ c ∈ m.node.allChildren, m.node.isBeside c = true →
        ∀ q ∈ (m.down c).preorder, q ∉ p.patternNames) ∧
    ∀ (source : Source) (i : ScopeId) (function : Place) (t : ScopeTree) (pos : Nat),
      ∃ simple : Bool, (simple = true ↔ p.node.IsSingle) ∧
        ScopeTree.declareParameter source i function t (p, pos) = p.patternNames.foldl (fun t n =>
          t.declare i (n.node.text source) (.parameter n function pos simple)) t := by
  refine ⟨fun h => ?_, fun source i function t pos => ⟨_, simple_iff p, rfl⟩⟩
  have hnames : p.patternNames = boundIn p := namesOf_eq_boundIn h p.above
  refine ⟨hnames, fun m hm c _ hb q hq hmem => ?_⟩
  rw [hnames, boundIn, List.mem_filter, isPartOf_of_isBeside hm hb hq, Bool.and_false] at hmem
  cases hmem.2

/-- A name of one letter in a role. -/
def letterAt (role : Role) (kind : Kind) (i : Nat) : Node := .mk role kind ⟨i, i + 1⟩ []

/-- The tree of the parameter `{a,[k]:[b=d,...c],e=f}:T=h`. -/
def nestedParameter : Node :=
  .mk .none .requiredParameter ⟨0, 26⟩
    [.mk .pattern .objectPattern ⟨0, 22⟩
      [letterAt .none .shorthandPropertyIdentifierPattern 1,
       .mk .none .pairPattern ⟨3, 17⟩
        [.mk .key .clause ⟨3, 6⟩ [letterAt .none .identifier 4],
         .mk .value .arrayPattern ⟨7, 17⟩
          [.mk .none .assignmentPattern ⟨8, 11⟩
            [letterAt .left .identifier 8, letterAt .right .identifier 10],
           .mk .none .restPattern ⟨12, 16⟩ [letterAt .none .identifier 15]]],
       .mk .none .objectAssignmentPattern ⟨18, 21⟩
        [letterAt .left .shorthandPropertyIdentifierPattern 18, letterAt .right .identifier 20]],
     .mk .none .typeSyntax ⟨22, 24⟩ [letterAt .none .typeIdentifier 23],
     letterAt .value .identifier 25]

theorem isPattern_letterAt {role : Role} {kind : Kind} (hk : kind.isBinder = true) (i : Nat) :
    (letterAt role kind i).IsPattern := .name hk rfl

/-- The parameter binds its four names, none from the key, the default values or the type. -/
theorem names_of_pattern_nested : nestedParameter.IsPattern ∧
    (Place.root nestedParameter).patternNames.map (·.node.span.start) = [1, 8, 15, 18] := by
  have hb : (Node.mk .none .assignmentPattern ⟨8, 11⟩
      [letterAt .left .identifier 8, letterAt .right .identifier 10]).IsPattern :=
    .default rfl rfl rfl rfl (isPattern_letterAt rfl 8)
  have hc : (Node.mk .none .restPattern ⟨12, 16⟩ [letterAt .none .identifier 15]).IsPattern :=
    .group rfl (List.forall_mem_singleton.2 (isPattern_letterAt rfl 15))
  have hpattern : nestedParameter.IsPattern := by
    have hparts : nestedParameter.constituents = [] ++ _ :: _ := rfl
    refine .parameter rfl hparts rfl nofun (by decide) (.group rfl ?_)
    refine List.forall_mem_cons.2 ⟨isPattern_letterAt rfl 1, List.forall_mem_cons.2 ⟨?_, ?_⟩⟩
    · exact .pair rfl rfl rfl rfl (.group rfl (List.forall_mem_cons.2
        ⟨hb, List.forall_mem_singleton.2 hc⟩))
    · exact List.forall_mem_singleton.2 (.default rfl rfl rfl rfl (isPattern_letterAt rfl 18))
  refine ⟨hpattern, ?_⟩
  rw [((names_of_pattern (Place.root nestedParameter)).1 hpattern).1]
  decide

end Place
end KeyTrace
