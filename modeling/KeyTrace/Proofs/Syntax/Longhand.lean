/-
Expressions with shorthand properties spelled out: `{x}` as `{x: x}`, in some of the
places where a shorthand stands. Of what is spelled out, the parts in a role, the parts
but for comments and what is under wrappers are again spelled out.
-/
import KeyTrace.Proofs.Literal.Templates
import KeyTrace.Proofs.Pointwise

namespace KeyTrace

namespace Bare

/-- The second expression says what the first one says, with some of its shorthands spelled out: as
a pair of the name with the name, which is read as one. -/
inductive SpelledOut : Bare → Bare → Prop
  | same {r : Role} {k : Kind} {ts : List Text} {cs cs' : List Bare}
      (h : List.Forall₂ SpelledOut cs cs') : SpelledOut (mk r k ts cs) (mk r k ts cs')
  | longhand (r : Role) (x : Text) : SpelledOut (mk r .shorthandPropertyIdentifier [x] [])
      (mk r .pair [] [mk .key .propertyIdentifier [x] [], mk .value .identifier [x] []])

mutual

theorem SpelledOut.refl : ∀ b : Bare, SpelledOut b b
  | mk _ _ _ cs => .same (spelledOut_refl_all cs)

theorem spelledOut_refl_all : ∀ l : List Bare, List.Forall₂ SpelledOut l l
  | [] => .nil
  | b :: l => .cons (.refl b) (spelledOut_refl_all l)

end

theorem spelledOut_refl_option : ∀ v : Option Bare, Option.Rel SpelledOut v v
  | none => .none
  | some b => .some (.refl b)

namespace SpelledOut

variable {b b' : Bare}

/-- Two expressions are of a kind with parts that go together, or one is a shorthand and the other
is its longhand. -/
theorem inv (h : SpelledOut b b') :
    b'.kind = b.kind ∧ b'.texts = b.texts ∧ List.Forall₂ SpelledOut b.children b'.children ∨
      ∃ x, b.kind = .shorthandPropertyIdentifier ∧ b.texts = [x] ∧ b'.kind = .pair ∧
        b'.children = [mk .key .propertyIdentifier [x] [], mk .value .identifier [x] []] := by
  cases h with
  | same h => exact .inl ⟨rfl, rfl, h⟩
  | longhand r x => exact .inr ⟨x, rfl, rfl, rfl, rfl⟩

theorem role_eq (h : SpelledOut b b') : b'.role = b.role := by
  cases h <;> rfl

theorem withRole (h : SpelledOut b b') (r : Role) : SpelledOut (b.withRole r) (b'.withRole r) := by
  cases h with
  | same h => exact .same h
  | longhand _ x => exact .longhand r x

/-- But for shorthands and pairs, kinds are kept. -/
theorem kind_iff (h : SpelledOut b b') {k : Kind} (hs : k ≠ .shorthandPropertyIdentifier)
    (hp : k ≠ .pair) : b.kind = k ↔ b'.kind = k := by
  rcases h.inv with ⟨hk, -⟩ | ⟨_, hk, -, hk', -⟩
  · rw [hk]
  · rw [hk, hk']
    exact iff_of_false hs.symm hp.symm

theorem texts_eq (h : SpelledOut b b') (hs : b.kind ≠ .shorthandPropertyIdentifier) :
    b'.texts = b.texts := by
  rcases h.inv with ⟨-, ht, -⟩ | ⟨_, hk, -⟩
  · exact ht
  · exact absurd hk hs

theorem unplaced (h : SpelledOut b b') :
    Option.Rel SpelledOut (Node.unplaced b) (Node.unplaced b') := by
  have hk := h.kind_iff (k := .parenthesizedExpression) nofun nofun
  unfold Node.unplaced
  split
  · next hb =>
    rw [if_pos (hk.1 hb)]
    rcases h.inv with ⟨-, -, hc⟩ | ⟨_, hs, -⟩
    · exact Pointwise.head?_rel hc
    · rw [hb] at hs
      cases hs
  · next hb =>
    rw [if_neg fun hb' => hb (hk.2 hb')]
    exact .some (h.withRole .none)

theorem filter_kind {l l' : List Bare} (h : List.Forall₂ SpelledOut l l') {k : Kind}
    (hs : k ≠ .shorthandPropertyIdentifier) (hp : k ≠ .pair) :
    List.Forall₂ SpelledOut (l.filter fun b => b.kind = k) (l'.filter fun b => b.kind = k) ∧
      List.Forall₂ SpelledOut (l.filter fun b => b.kind != k) (l'.filter fun b => b.kind != k) := by
  refine ⟨List.rel_filter (fun b b' hb => ?_) h, List.rel_filter (fun b b' hb => ?_) h⟩
  · simpa using hb.kind_iff hs hp
  · simpa using not_congr (hb.kind_iff hs hp)

theorem coreInside (h : SpelledOut b b') (hk : b.kind ≠ .shorthandPropertyIdentifier) :
    Option.Rel SpelledOut (Node.coreInside b) (Node.coreInside b') := by
  rcases h.inv with ⟨-, -, hc⟩ | ⟨_, hs, -⟩
  · have hhead := Pointwise.head?_rel (filter_kind hc (k := .comment) nofun nofun).2
    unfold Node.coreInside
    generalize (b.children.filter fun b => b.kind != .comment).head? = o at hhead ⊢
    generalize (b'.children.filter fun b => b.kind != .comment).head? = o' at hhead ⊢
    cases hhead with
    | none => exact .none
    | some h => exact h.unplaced
  · exact absurd hs hk

end SpelledOut

end Bare

namespace Node

open Bare

variable {s s' : Source} {n n' a a' : Node}

theorem core_spelledOut (h : SpelledOut (bare s n) (bare s' n')) :
    Option.Rel SpelledOut (core s n) (core s' n') := by
  rw [← unplaced_bare, ← unplaced_bare]
  exact h.unplaced

theorem coreOf_spelledOut {o o' : Option Node}
    (h : Option.Rel SpelledOut (o.map (bare s)) (o'.map (bare s'))) :
    Option.Rel SpelledOut (coreOf s o) (coreOf s' o') := by
  cases Pointwise.option_of_map h with
  | none => exact .none
  | some hn => exact core_spelledOut hn

theorem unwrapOf_spelledOut {o o' : Option Node}
    (h : Option.Rel SpelledOut (coreOf s o) (coreOf s' o')) :
    Option.Rel (fun a a' => SpelledOut (shell s a) (shell s' a')) (unwrapOf o) (unwrapOf o') := by
  rw [coreOf_eq, coreOf_eq] at h
  exact Pointwise.option_of_map h

theorem texts_of_isToken (hk : n.kind.isToken = true) : texts s n = [n.text s] := by
  have hn : n.kind ≠ .templateString := by
    intro ht
    rw [ht] at hk
    cases hk
  rw [texts, if_neg hn, if_pos hk]

theorem text_eq_of_texts (hk : n'.kind = n.kind) (htoken : n.kind.isToken = true)
    (ht : texts s' n' = texts s n) : n'.text s' = n.text s := by
  rw [texts_of_isToken htoken, texts_of_isToken (hk ▸ htoken)] at ht
  exact (List.cons.inj ht).1

theorem unwrap?_of_bare {r : Role} {k : Kind} {ts : List Text} {cs : List Bare}
    (h : bare s n = .mk r k ts cs) (hk : k ≠ .parenthesizedExpression) :
    ∃ a, n.unwrap? = some a ∧ a.kind = k ∧ texts s a = ts ∧ bareAll s a.allChildren = cs := by
  have hc : core s n = some (.mk .none k ts cs) := by
    rw [← unplaced_bare, h]
    exact if_neg hk
  rw [core_eq] at hc
  obtain ⟨a, ha, hshell⟩ := Option.map_eq_some_iff.1 hc
  exact ⟨a, ha, congrArg Bare.kind hshell, congrArg Bare.texts hshell, congrArg Bare.children hshell⟩

/-- What a part that is never wrapped says in its place. -/
theorem bare_of_isPart (hk : n.kind.isPart = true) :
    (bare s n).kind = n.kind ∧ (bare s n).texts = texts s n ∧
      (bare s n).children = bareAll s n.allChildren := by
  have hs := Kind.shape_of_isPart hk
  rw [bare, core_of_not_wrapper hs, placed, if_neg fun h => hs h.1]
  exact ⟨rfl, rfl, rfl⟩

theorem texts_bare (hp : n.kind.isPart = true) (ht : n.kind.isToken = true) :
    (bare s n).texts = [n.text s] :=
  (bare_of_isPart hp).2.1.trans (texts_of_isToken ht)

theorem child?_of_pair {x : Text} {v : Bare}
    (h : bareAll s n.allChildren = [.mk .key .propertyIdentifier [x] [], v]) (hv : v.role = .value) :
    (∃ k, n.child? .key = some k ∧ k.kind = .propertyIdentifier ∧ k.text s = x) ∧
      ∃ w, n.child? .value = some w ∧ bare s w = v := by
  have hkey := map_bare_child? s n (r := .key) nofun
  have hvalue := map_bare_child? s n (r := .value) nofun
  rw [h] at hkey hvalue
  obtain ⟨k, hk, hb⟩ := Option.map_eq_some_iff.1 (hkey.trans rfl)
  rw [List.find?_cons, List.find?_cons, hv] at hvalue
  obtain ⟨w, hw, hwv⟩ := Option.map_eq_some_iff.1 (hvalue.trans rfl)
  have hkind : k.kind = .propertyIdentifier := (kind_bare_iff rfl).1 (by rw [hb]; rfl)
  refine ⟨⟨k, hk, hkind, ?_⟩, w, hw, hwv⟩
  have htexts := texts_bare (s := s) (n := k) (by rw [hkind]; rfl) (by rw [hkind]; rfl)
  rw [hb] at htexts
  exact (List.cons.inj htexts).1.symm

/-- A property is a shorthand that is kept or spelled out, a pair that is kept with its parts spelled
out, or neither. -/
theorem property_spelledOut (h : SpelledOut (bare s n) (bare s' n')) :
    (n.kind = .shorthandPropertyIdentifier ∧ n'.kind = .shorthandPropertyIdentifier ∧
      n'.text s' = n.text s) ∨
    (n.kind = .shorthandPropertyIdentifier ∧ n'.kind = .pair ∧ bareAll s' n'.allChildren =
      [.mk .key .propertyIdentifier [n.text s] [], .mk .value .identifier [n.text s] []]) ∨
    (n.kind = .pair ∧ n'.kind = .pair ∧
      List.Forall₂ SpelledOut (bareAll s n.allChildren) (bareAll s' n'.allChildren)) ∨
    ((n.kind ≠ .shorthandPropertyIdentifier ∧ n.kind ≠ .pair) ∧
      n'.kind ≠ .shorthandPropertyIdentifier ∧ n'.kind ≠ .pair) := by
  have hshort {s : Source} {n : Node} : (bare s n).kind = .shorthandPropertyIdentifier ↔
      n.kind = .shorthandPropertyIdentifier := kind_bare_iff rfl
  have hpair {s : Source} {n : Node} : (bare s n).kind = .pair ↔ n.kind = .pair := kind_bare_iff rfl
  have htexts {s : Source} {n : Node} (hn : n.kind = .shorthandPropertyIdentifier) :
      (bare s n).texts = [n.text s] := texts_bare (by rw [hn]; rfl) (by rw [hn]; rfl)
  rcases h.inv with ⟨hk, ht, hc⟩ | ⟨x, hk, ht, hk', hc'⟩
  · by_cases hs : n.kind = .shorthandPropertyIdentifier
    · have hs' := hshort.1 (hk.trans (hshort.2 hs))
      rw [htexts hs, htexts hs'] at ht
      exact .inl ⟨hs, hs', (List.cons.inj ht).1⟩
    by_cases hp : n.kind = .pair
    · have hp' := hpair.1 (hk.trans (hpair.2 hp))
      rw [(bare_of_isPart (by rw [hp]; rfl)).2.2, (bare_of_isPart (by rw [hp']; rfl)).2.2] at hc
      exact .inr (.inr (.inl ⟨hp, hp', hc⟩))
    · exact .inr (.inr (.inr ⟨⟨hs, hp⟩, fun h' => hs (hshort.1 (hk.symm.trans (hshort.2 h'))),
        fun h' => hp (hpair.1 (hk.symm.trans (hpair.2 h')))⟩))
  · have hs := hshort.1 hk
    have hp' := hpair.1 hk'
    rw [htexts hs] at ht
    obtain rfl := (List.cons.inj ht).1
    rw [(bare_of_isPart (by rw [hp']; rfl)).2.2] at hc'
    exact .inr (.inl ⟨hs, hp', hc'⟩)

theorem forall₂_children_spelledOut
    (h : List.Forall₂ SpelledOut (bareAll s n.allChildren) (bareAll s' n'.allChildren)) :
    List.Forall₂ (fun c c' => SpelledOut (bare s c) (bare s' c')) n.children n'.children := by
  have hm := (SpelledOut.filter_kind h (k := .comment) nofun nofun).2
  rw [← map_bare_children, ← map_bare_children, List.forall₂_map_left_iff,
    List.forall₂_map_right_iff] at hm
  exact hm

theorem child?_spelledOut
    (h : List.Forall₂ SpelledOut (bareAll s n.allChildren) (bareAll s' n'.allChildren)) {r : Role}
    (hr : r ≠ .none) : Option.Rel SpelledOut ((n.child? r).map (bare s)) ((n'.child? r).map (bare s')) := by
  rw [map_bare_child? s n hr, map_bare_child? s' n' hr]
  exact Pointwise.find?_rel (fun b b' hb => by rw [hb.role_eq]) h

theorem substitutions_spelledOut {l l' : List Node}
    (h : List.Forall₂ SpelledOut (bareAll s l) (bareAll s' l')) :
    List.Forall₂ (fun o o' => Option.Rel SpelledOut (coreOf s o) (coreOf s' o'))
      (Literal.Template.substitutions l) (Literal.Template.substitutions l') := by
  have hm := (SpelledOut.filter_kind h (k := .templateSubstitution) (by decide) (by decide)).1
  rw [← map_bare_substitutions, ← map_bare_substitutions, List.forall₂_map_left_iff,
    List.forall₂_map_right_iff] at hm
  rw [Literal.Template.substitutions, Literal.Template.substitutions, List.forall₂_map_left_iff,
    List.forall₂_map_right_iff]
  have hkinds : ∀ c ∈ l.filter (fun c => c.kind = .templateSubstitution),
      c.kind = .templateSubstitution := fun c hc => by simpa using (List.mem_filter.1 hc).2
  refine ((List.forall₂_and_left _ _).2 ⟨hkinds, hm⟩).imp fun c c' h => ?_
  obtain ⟨hk, hc⟩ := h
  have hb : (bare s c).kind = .templateSubstitution := (kind_bare_iff rfl).2 hk
  have hk' : c'.kind = .templateSubstitution :=
    (kind_bare_iff rfl).1 ((hc.kind_iff (k := .templateSubstitution) (by decide) (by decide)).1 hb)
  have hinside := hc.coreInside (by rw [hb]; decide)
  rwa [coreInside_bare rfl hk, coreInside_bare rfl hk'] at hinside

end Node

namespace Literal.Template

theorem assemble_rel {α β : Type} {R : α → β → Prop} {es : List α} {es' : List β}
    (h : List.Forall₂ R es es') : ∀ gs : List Text,
    (∃ e, assemble gs es = .error e ∧ assemble gs es' = .error e) ∨
      ∃ first rest rest', assemble gs es = .ok (first, rest) ∧ assemble gs es' = .ok (first, rest') ∧
        List.Forall₂ (fun p p' => R p.1 p'.1 ∧ p.2 = p'.2) rest rest' := by
  induction h with
  | nil =>
    intro gs
    cases gs with
    | nil => exact .inr ⟨[], [], [], rfl, rfl, .nil⟩
    | cons g gs =>
      simp only [assemble]
      cases cookTemplate g with
      | error e => exact .inl ⟨e, rfl, rfl⟩
      | ok t => exact .inr ⟨t, [], [], rfl, rfl, .nil⟩
  | cons he _ ih =>
    intro gs
    cases gs with
    | nil => exact .inr ⟨[], [], [], rfl, rfl, .nil⟩
    | cons g gs =>
      simp only [assemble]
      cases cookTemplate g with
      | error e => exact .inl ⟨e, rfl, rfl⟩
      | ok t =>
        rcases ih gs with ⟨e, h, h'⟩ | ⟨first, rest, rest', h, h', hr⟩
        · rw [h, h']
          exact .inl ⟨e, rfl, rfl⟩
        · rw [h, h']
          exact .inr ⟨t, _, _, rfl, rfl, .cons ⟨he, rfl⟩ hr⟩

/-- A template is kept, with its substitutions spelled out. -/
theorem ofNode_spelledOut {s s' : Source} {n n' : Node} (hk : n.kind = .templateString)
    (hk' : n'.kind = .templateString) (ht : Node.texts s' n' = Node.texts s n)
    (hc : List.Forall₂ Bare.SpelledOut (Node.bareAll s n.allChildren)
      (Node.bareAll s' n'.allChildren)) :
    (∃ e, ofNode s n = .error e ∧ ofNode s' n' = .error e) ∨
      ∃ t t', ofNode s n = .ok t ∧ ofNode s' n' = .ok t' ∧ t'.first = t.first ∧
        List.Forall₂ (fun p p' => Option.Rel Bare.SpelledOut (Node.coreOf s p.1)
          (Node.coreOf s' p'.1) ∧ p.2 = p'.2) t.rest t'.rest := by
  have hraw : rawTexts s' n' = rawTexts s n := by
    rw [Node.texts, Node.texts, if_pos hk, if_pos hk'] at ht
    exact ht
  rw [ofNode_eq, ofNode_eq, hraw]
  rcases assemble_rel (Node.substitutions_spelledOut hc) (rawTexts s n) with
    ⟨e, h, h'⟩ | ⟨first, rest, rest', h, h', hr⟩
  · rw [h, h']
    exact .inl ⟨e, rfl, rfl⟩
  · rw [h, h']
    exact .inr ⟨_, _, rfl, rfl, rfl, hr⟩

end Literal.Template
end KeyTrace
