/-
Trees whose spans are rewritten: what becomes of their nodes, and when a tree stands in
another source as it stands in one.
-/
import KeyTrace.Proofs.Syntax.Places
import KeyTrace.Syntax.Shape

namespace KeyTrace.Node

@[simp] theorem kind_mapSpan (f : Span → Span) (n : Node) : (n.mapSpan f).kind = n.kind := by
  obtain ⟨r, k, s, cs⟩ := n
  rfl

@[simp] theorem span_mapSpan (f : Span → Span) (n : Node) : (n.mapSpan f).span = f n.span := by
  obtain ⟨_, _, _, _⟩ := n
  rfl

@[simp] theorem role_mapSpan (f : Span → Span) (n : Node) : (n.mapSpan f).role = n.role := by
  obtain ⟨_, _, _, _⟩ := n
  rfl

theorem mapSpanAll_eq_map (f : Span → Span) (l : List Node) :
    mapSpanAll f l = l.map (mapSpan f) := by
  induction l with
  | nil => rfl
  | cons c l ih => rw [mapSpanAll, ih, List.map_cons]

theorem allChildren_mapSpan (f : Span → Span) (n : Node) :
    (n.mapSpan f).allChildren = n.allChildren.map (mapSpan f) := by
  obtain ⟨r, k, s, cs⟩ := n
  exact mapSpanAll_eq_map f cs

mutual

/-- The nodes of a tree whose spans are rewritten are those of the tree, rewritten. -/
theorem preorder_mapSpan (f : Span → Span) :
    ∀ n : Node, (n.mapSpan f).preorder = n.preorder.map (mapSpan f)
  | .mk r k s cs => by
    rw [mapSpan, preorder, preorder, preorderAll_mapSpan f cs]
    rfl

theorem preorderAll_mapSpan (f : Span → Span) :
    ∀ l : List Node, preorderAll (mapSpanAll f l) = (preorderAll l).map (mapSpan f)
  | [] => rfl
  | c :: l => by
    rw [mapSpanAll, preorderAll, preorderAll, preorder_mapSpan f c, preorderAll_mapSpan f l,
      List.map_append]

end

theorem children_mapSpan (f : Span → Span) (n : Node) :
    (n.mapSpan f).children = n.children.map (mapSpan f) := by
  have hcomment : (fun c => !c.isComment) ∘ mapSpan f = fun c => !c.isComment := by
    funext c
    simp [isComment]
  rw [children, allChildren_mapSpan, List.filter_map, hcomment, children]

theorem firstChild?_mapSpan (f : Span → Span) (n : Node) :
    (n.mapSpan f).firstChild? = n.firstChild?.map (mapSpan f) := by
  rw [firstChild?, children_mapSpan, List.head?_map, firstChild?]

theorem mem_preorder_of_mem_allChildren {n c m : Node} (hc : c ∈ n.allChildren)
    (hm : m ∈ c.preorder) : m ∈ n.preorder := by
  rw [preorder_eq, preorderAll_eq_flatMap]
  exact List.mem_cons_of_mem _ (List.mem_flatMap.2 ⟨c, hc, hm⟩)

/-- A tree moved from one position to another. -/
def moved (a b : Nat) (n : Node) : Node :=
  n.mapSpan fun x => ⟨x.start - a + b, x.stop - a + b⟩

/-- A tree stands in another source as it stands in one, moved, with the same text at every node. -/
def Copied (s s' : Source) (n n' : Node) : Prop :=
  ∃ a b, n' = moved a b n ∧
    ∀ m ∈ n.preorder, a ≤ m.span.start ∧ (moved a b m).text s' = m.text s

variable {s s' : Source} {n n' : Node}

/-- With a tree the first of its children is copied. -/
theorem Copied.firstChild? (h : Copied s s' n n') :
    Option.Rel (Copied s s') n.firstChild? n'.firstChild? := by
  obtain ⟨a, b, rfl, hn⟩ := h
  rw [moved, firstChild?_mapSpan]
  cases hc : n.firstChild? with
  | none => exact .none
  | some c =>
    have hmem : c ∈ n.allChildren := (List.mem_filter.1 (List.mem_of_head? hc)).1
    exact .some ⟨a, b, rfl, fun m hm => hn m (mem_preorder_of_mem_allChildren hmem hm)⟩

end KeyTrace.Node
