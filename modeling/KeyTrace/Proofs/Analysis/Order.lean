/-
Accessors and usages come in the order of the source.

Calls are visited in pre-order, but a usage lies at the first argument of its call. A
call inside another that looks keys up is neither in what is called, which is a name or
a member of one, nor in the types that this is applied to; so it is in the arguments,
and starts no earlier than the first of them. Its own first argument comes after what it
calls. A declarator inside another is behind the name of that one.
-/
import KeyTrace.Proofs.Analysis.Mapping
import KeyTrace.Proofs.Analysis.Spans
import KeyTrace.Proofs.Grammar.Order
import Mathlib.Data.List.Find

namespace KeyTrace

namespace Node

variable {n m c : Node}

/-- No call is inside the types that a call is applied to. -/
def typesHoldNoCall (call : Node) : Bool :=
  call.allChildren.all fun t =>
    t.kind != .typeArguments || t.preorder.all fun m => m.kind != .callExpression

theorem Nests.child?_eq (h : n.Nests) {r : Role} (hr : r ≠ .none) :
    n.child? r = n.parts.find? fun c => c.role == r := by
  rw [child?, Node.parts, unremarked, List.find?_filter]
  refine List.find?_congr fun c hc => ?_
  cases hk : c.kind.isRemark with
  | true => simp [(h.remarks c hc hk).2, hr.symm]
  | false => simp [beq_eq_decide]

theorem Nests.call (h : n.Nests) (hk : n.kind = .callExpression) : ∃ f ts args,
    n.parts = f :: (ts ++ [args]) ∧ n.child? .function = some f ∧ n.child? .arguments = some args ∧
      ∀ t ∈ ts, t.kind = .typeArguments := by
  have hparts := h.parts
  rw [hk] at hparts
  obtain ⟨kf, kts, ka, hp, hkts⟩ := hparts
  obtain ⟨f, l, hl, hf, hp⟩ := List.map_eq_cons_iff.1 hp
  obtain ⟨ts, l, rfl, hts, hp⟩ := List.map_eq_append_iff.1 hp
  obtain ⟨args, rfl, hargs⟩ := List.map_eq_singleton_iff.1 hp
  have ht : ∀ t ∈ ts, t.part = (.none, .typeArguments) := fun t ht =>
    hkts _ (hts ▸ List.mem_map_of_mem ht)
  have hfr : f.role = .function := congrArg Prod.fst hf
  have hargsr : args.role = .arguments := congrArg Prod.fst hargs
  refine ⟨f, ts, args, hl, ?_, ?_, fun t h => congrArg Prod.snd (ht t h)⟩
  · rw [h.child?_eq (r := .function) nofun, hl, List.find?_cons_of_pos (by simp [hfr])]
  · rw [h.child?_eq (r := .arguments) nofun, hl, List.find?_cons_of_neg (by simp [hfr]), List.find?_append,
      List.find?_eq_none.2 fun t h => by simp [show t.role = _ from congrArg Prod.fst (ht t h)]]
    simp [hargsr]

theorem Nests.member (h : n.Nests) (hk : n.kind = .memberExpression) : ∃ o names,
    n.parts = o :: names ∧ n.child? .object = some o ∧ ∀ m ∈ names, m.kind.isName = true := by
  have hparts := h.parts
  rw [hk] at hparts
  obtain ⟨ko, knames, hp, hknames⟩ := hparts
  obtain ⟨o, names, hl, ho, hp⟩ := List.map_eq_cons_iff.1 hp
  refine ⟨o, names, hl, ?_, fun m hm => hknames _ (hp ▸ List.mem_map_of_mem hm)⟩
  rw [h.child?_eq (r := .object) nofun, hl,
    List.find?_cons_of_pos (by simp [show o.role = _ from congrArg Prod.fst ho])]

theorem Nests.declarator (h : n.Nests) (hk : n.kind = .variableDeclarator) : ∃ name more,
    n.parts = name :: more ∧ n.child? .name = some name := by
  have hparts := h.parts
  rw [hk] at hparts
  obtain ⟨kn, kmore, hp⟩ := hparts
  obtain ⟨name, more, hl, hn, hp⟩ := List.map_eq_cons_iff.1 hp
  refine ⟨name, more, hl, ?_⟩
  rw [h.child?_eq (r := .name) nofun, hl,
    List.find?_cons_of_pos (by simp [show name.role = _ from congrArg Prod.fst hn])]

theorem AllNest.eq_of_isName (h : n.AllNest) (hn : n.kind.isName = true) (hm : m ∈ n.preorder)
    (hk : m.kind.isRemark = false) : m = n := by
  have hparts : n.parts = [] := by
    have hp := h.nests.parts
    generalize n.kind = k at hn hp
    cases k <;> first | exact List.map_eq_nil_iff.1 (hp rfl) | cases hn
  rw [preorder_eq, List.mem_cons] at hm
  refine hm.resolve_right fun hm => ?_
  obtain ⟨c, hc, -⟩ := h.below_part hm hk
  rw [hparts] at hc
  cases hc

theorem AllNest.first_stop_le (h : n.AllNest) {first : Node} {more : List Node}
    (hp : n.parts = first :: more) (hc : c ∈ more) (hm : m ∈ c.preorder)
    (hk : m.kind.isRemark = false) : first.span.stop ≤ m.span.start := by
  have hrow := h.nests.row
  have hne := h.nests.nonempty
  rw [hp] at hrow hne
  have := (hrow.2.2.mem_le (fun c hc => hne c (List.mem_cons_of_mem _ hc)) c hc).1
  have := ((h.part (hp ▸ List.mem_cons_of_mem _ hc)).inside hm hk).1
  omega

theorem AllNest.first_inside (h : n.AllNest) {first : Node} {more : List Node}
    (hp : n.parts = first :: more) : n.span.start ≤ first.span.start ∧
      first.span.start < first.span.stop ∧ first.span.stop ≤ n.span.stop := by
  have hfirst : first ∈ n.parts := hp ▸ List.mem_cons_self
  have := h.nests.row.mem_le h.nests.nonempty first hfirst
  exact ⟨this.1, h.nests.nonempty first hfirst, this.2⟩

theorem AllNest.declarator_lt (h : n.AllNest) (hk : n.kind = .variableDeclarator) {name : Node}
    (hname : n.child? .name = some name) (hid : name.kind = .identifier)
    (hm : m.kind = .variableDeclarator) (hb : n.Before m) : n.span.start < m.span.start := by
  obtain ⟨name', more, hp, hname'⟩ := h.nests.declarator hk
  cases hname.symm.trans hname'
  have hfirst := h.first_inside hp
  rcases hb with hb | hb
  · have hmr : m.kind.isRemark = false := by rw [hm]; rfl
    obtain ⟨c, hc, hmc⟩ := h.below_part hb hmr
    have hcp := hc
    rw [hp, List.mem_cons] at hc
    rcases hc with rfl | hc
    · have he := (h.part hcp).eq_of_isName (by rw [hid]; rfl) hmc hmr
      rw [he, hid] at hm
      cases hm
    · have := h.first_stop_le hp hc hmc hmr
      omega
  · omega

theorem AllNest.no_call_of_lookup {source : Source} {name : Text} {f : Node} (h : f.AllNest)
    (hf : n.child? .function = some f) (hn : Usage.lookupVariable? source n = some name)
    (hm : m ∈ f.preorder) : m.kind ≠ .callExpression := by
  intro hk
  have hmr : m.kind.isRemark = false := by rw [hk]; rfl
  have hname {c : Node} (hc : c.AllNest) (hcn : c.kind.isName = true) : m ∉ c.preorder := by
    intro hm
    rw [← hc.eq_of_isName hcn hm hmr, hk] at hcn
    cases hcn
  -- What is called is a name, or a member of which the object and the property are names; and there
  -- is nothing below a name.
  unfold Usage.lookupVariable? at hn
  simp only [hf] at hn
  split at hn
  · next hs => exact hname h (by rw [kind_of_shape_identifier hs]; rfl) hm
  · next hs =>
    have hfk := kind_of_shape_member hs
    split at hn
    · next o q ho hq =>
      split at hn
      · next hplain =>
        obtain ⟨o', names, hp, ho', hnames⟩ := h.nests.member hfk
        cases ho.symm.trans ho'
        rw [preorder_eq, List.mem_cons] at hm
        rcases hm with rfl | hm
        · rw [hfk] at hk
          cases hk
        · obtain ⟨c, hc, hm⟩ := h.below_part hm hmr
          have hcn : c.kind.isName = true := by
            rw [hp, List.mem_cons] at hc
            rcases hc with rfl | hc
            · rw [kind_of_shape_identifier hplain.1]
              rfl
            · exact hnames c hc
          exact hname (h.part hc) hcn hm
      · cases hn
    · cases hn
  · cases hn

/-- The first argument of a call that looks a key up, if it is no comment. -/
structure FirstArgument (source : Source) (call first : Node) : Prop where
  lookup : ∃ name, Usage.lookupVariable? source call = some name
  argument : ∃ rest, call.callArguments?.getD [] = first :: rest
  code : first.kind.isRemark = false

/-- The arguments are the last part of a call, and the first of them is the first part of those. -/
theorem AllNest.arguments (h : n.AllNest) (hk : n.kind = .callExpression) {first : Node}
    {rest : List Node} (hf : n.callArguments?.getD [] = first :: rest)
    (hc : first.kind.isRemark = false) : ∃ f ts args more, n.parts = f :: (ts ++ [args]) ∧
      n.child? .function = some f ∧ (∀ t ∈ ts, t.kind = .typeArguments) ∧ args.kind = .arguments ∧
      args.parts = first :: more := by
  obtain ⟨f, ts, args, hp, hfunction, hargs, hts⟩ := h.nests.call hk
  rw [callArguments?, hargs] at hf
  dsimp only at hf
  split at hf
  · next hak =>
    refine ⟨f, ts, args, unremarked rest, hp, hfunction, hts, hak, ?_⟩
    rw [← unremarked_cons hc, ← hf, Option.getD_some, children, unremarked, List.filter_filter, parts,
      unremarked]
    refine List.filter_congr fun c _ => ?_
    cases hk : c.kind <;> simp [isComment, Kind.isRemark, hk]
  · cases hf

theorem AllNest.argument_inside {source : Source} {x : Node} (h : n.AllNest)
    (hk : n.kind = .callExpression) (hx : FirstArgument source n x) :
    n.span.start < x.span.start ∧ x.span.start < x.span.stop ∧ x.span.stop ≤ n.span.stop := by
  obtain ⟨rest, hrest⟩ := hx.argument
  obtain ⟨f, ts, args, more, hp, -, -, -, hargs⟩ := h.arguments hk hrest hx.code
  have hmem : args ∈ n.parts := by simp [hp]
  have hxargs : x ∈ args.preorder := by
    rw [preorder_eq]
    exact List.mem_cons_of_mem _ <| mem_preorderAll_of_mem
      (mem_unremarked.1 (show x ∈ args.parts from hargs ▸ List.mem_cons_self)).1
  have := h.first_inside hp
  have := h.first_stop_le hp (by simp) hxargs hx.code
  have := (h.part hmem).first_inside hargs
  have := h.nests.row.mem_le h.nests.nonempty args hmem
  omega

theorem AllNest.argument_le {source : Source} {x : Node} (h : n.AllNest)
    (hk : n.kind = .callExpression) (hx : FirstArgument source n x) (ht : n.typesHoldNoCall = true)
    (hm : m ∈ preorderAll n.allChildren) (hmk : m.kind = .callExpression) :
    x.span.start ≤ m.span.start := by
  obtain ⟨rest, hrest⟩ := hx.argument
  obtain ⟨name, hname⟩ := hx.lookup
  obtain ⟨f, ts, args, more, hp, hf, hts, hak, hargs⟩ := h.arguments hk hrest hx.code
  have hmr : m.kind.isRemark = false := by rw [hmk]; rfl
  obtain ⟨c, hc, hmc⟩ := h.below_part hm hmr
  have hcn := h.part hc
  have hcm := (mem_unremarked.1 hc).1
  rw [hp, List.mem_cons, List.mem_append, List.mem_singleton] at hc
  rcases hc with rfl | hc | rfl
  · exact absurd hmk (hcn.no_call_of_lookup hf hname hmc)
  · have hnone : ∀ m ∈ c.preorder, m.kind ≠ .callExpression := by
      simpa [hts c hc] using List.all_eq_true.1 ht c hcm
    exact absurd hmk (hnone m hmc)
  · rw [preorder_eq, List.mem_cons] at hmc
    rcases hmc with rfl | hmc
    · rw [hak] at hmk
      cases hmk
    · obtain ⟨g, hg, hmg⟩ := hcn.below_part hmc hmr
      have hgn := hcn.part hg
      rw [hargs, List.mem_cons] at hg
      rcases hg with rfl | hg
      · exact (hgn.inside hmg hmr).1
      · have := hcn.first_stop_le hargs hg hmg hmr
        have := hcn.first_inside hargs
        omega

/-- The first arguments of two lookups start in the order of the calls. -/
theorem AllNest.argument_lt {source : Source} {x y : Node} (h : n.AllNest) (hm : m.AllNest)
    (hk : n.kind = .callExpression) (hmk : m.kind = .callExpression)
    (hx : FirstArgument source n x) (hy : FirstArgument source m y)
    (ht : n.typesHoldNoCall = true) (hb : n.Before m) : x.span.start < y.span.start := by
  have hxin := h.argument_inside hk hx
  have hyin := hm.argument_inside hmk hy
  -- The later call stands inside the earlier one, or starts where that has ended.
  rcases hb with hb | hb
  · have := h.argument_le hk hx ht hb hmk
    omega
  · omega

end Node

open Accessor (Workplace)

theorem Program.Legal.charOffset_lt {p : Program} {n m : Node} (hn : p.Legal n) (hm : p.Legal m)
    (hnk : n.kind ≠ .program) (hmk : m.kind ≠ .program) (h : n.span.start < m.span.start) :
    p.source.charOffset n.span.start < p.source.charOffset m.span.start := by
  obtain ⟨a, b, hab, hb, hs⟩ := hn.place hnk
  obtain ⟨a', b', hab', hb', hs'⟩ := hm.place hmk
  rw [hs, hs'] at h ⊢
  simp only [Source.stretch] at h ⊢
  rw [Source.charOffset_offset (by omega), Source.charOffset_offset (by omega)]
  by_contra hle
  exact Nat.not_le.2 h (Utf8.offset_le (Nat.not_lt.1 hle))

theorem Accessor.Workplace.pairwise_placesOf {w : Workplace} (h : w.program.root.AllNest) {kind : Kind}
    (hk : kind.isRemark = false) :
    (w.placesOf kind).Pairwise fun p q => p.node.Before q.node := by
  rw [← List.pairwise_map (f := Place.node) (R := Node.Before)]
  have hnodes : (w.placesOf kind).map Place.node =
      (Node.unremarked w.program.root.preorder).filter fun n => n.kind == kind := by
    rw [Workplace.placesOf, ← Function.comp_def (fun n : Node => n.kind == kind) Place.node,
      ← List.filter_map]
    change ((Place.preorderOf [] w.program.root).map Place.node).filter _ = _
    rw [Place.map_node_preorderOf, Node.unremarked, List.filter_filter]
    refine List.filter_congr fun n _ => ?_
    by_cases hn : n.kind = kind
    · simp [hn, hk]
    · simp [hn]
  rw [hnodes]
  exact h.pairwise_preorder.filter _

namespace Accessor

variable {w : Workplace}

theorem start_of_ofDeclarator {d : Place} {a : Accessor}
    (h : (ofDeclarator w d).outcome = .ok (some a)) :
    (∃ name, d.node.child? .name = some name ∧ name.kind = .identifier) ∧
      a.location.start = w.source.charOffset d.node.span.start := by
  unfold ofDeclarator at h
  split at h
  · cases h
  · next name hname =>
    split at h
    · cases h
    · next hid =>
      split at h
      · cases h
      · obtain ⟨ns, -, h⟩ := Traced.bind_ok_iff.1 h
        cases h
        exact ⟨⟨name, hname, not_not.1 hid⟩, rfl⟩

theorem pairwise_ofProgram (hw : w.Legal) (hnest : w.program.root.AllNest) {as : List Accessor}
    (h : (ofProgram w).outcome = .ok as) :
    as.Pairwise fun a b => a.location.start < b.location.start := by
  obtain ⟨found, hfound, h⟩ := Traced.bind_ok_iff.1 h
  cases h
  rw [List.pairwise_filterMap]
  refine Pointwise.pairwise (Traced.mapM_ok_iff.1 hfound) (Workplace.pairwise_placesOf hnest rfl)
    fun d hd e he o o' hb hda heb a ha b hb' => ?_
  cases ha
  cases hb'
  obtain ⟨hd, hdk⟩ := Workplace.mem_of_placesOf hd
  obtain ⟨he, hek⟩ := Workplace.mem_of_placesOf he
  obtain ⟨⟨name, hname, hid⟩, hstart⟩ := start_of_ofDeclarator hda
  rw [hstart, (start_of_ofDeclarator heb).2]
  exact (hw.program _ hd).charOffset_lt (hw.program _ he) (by simp [hdk]) (by simp [hek])
    ((hnest.of_mem hd).declarator_lt hdk hname hid hek hb)

end Accessor

namespace Usage

open Fold (constant)

variable {w : Workplace} {ds : List Declaration} {fallback : Fallback} {delimiter : Text}
  {call : Place} {us : List Usage}

theorem localKeys_of_remark {i : ScopeId} {first : Node} (hk : first.kind.isRemark = true)
    {keys : List Text} (h : (localKeys w i first).outcome = .ok keys) : keys = [] := by
  have hs : first.shape = .other := by
    rw [Node.shape]
    generalize first.kind = k at hk
    cases k <;> first | rfl | cases hk
  have hu : first.unwrap? = some first := Node.unwrap?_of_shape (by simp [hs])
  have hfold : unwrapOf (some first) = some first := hu
  obtain ⟨v, hv, h⟩ := Traced.bind_ok_iff.1 h
  rw [Fold.constant_of_le (by decide) hfold, Fold.foldShape, hs] at hv
  cases hv
  simp only [hu, hs] at h
  exact (Except.ok.inj h).symm

/-- Every usage of a call lies at the first argument of the call, which is no comment. -/
theorem start_of_ofCall (h : (ofCall w fallback delimiter call).outcome = .ok us) {u : Usage}
    (hu : u ∈ us) : ∃ first, call.node.FirstArgument w.source first ∧
      u.start = w.source.charOffset first.span.start := by
  cases hv : lookupVariable? w.source call.node with
  | none =>
    simp only [ofCall, hv] at h
    cases h
    cases hu
  | some name =>
    obtain ⟨ns, -, ⟨-, rfl⟩ | ⟨first, rest, keys, hargs, hkeys, rfl⟩⟩ := ofCall_ok_cases h hv
    · cases hu
    · obtain ⟨key, hkey, rfl⟩ := List.mem_map.1 hu
      refine ⟨first, ⟨⟨name, hv⟩, ⟨rest, hargs⟩, Bool.eq_false_iff.2 fun hr => ?_⟩, rfl⟩
      rw [localKeys_of_remark hr hkeys] at hkey
      cases hkey

theorem start_eq_of_ofCall (h : (ofCall w fallback delimiter call).outcome = .ok us) {u v : Usage}
    (hu : u ∈ us) (hv : v ∈ us) : u.start = v.start := by
  obtain ⟨x, hx, hux⟩ := start_of_ofCall h hu
  obtain ⟨y, hy, hvy⟩ := start_of_ofCall h hv
  obtain ⟨_, hargs⟩ := hx.argument
  obtain ⟨_, hargs'⟩ := hy.argument
  cases hargs.symm.trans hargs'
  rw [hux, hvy]

/-- The keys that a call looks up are at its first argument: the string that it folds to, or those of
the list that it runs over, in the order of the list. -/
inductive IsBlock (w : Workplace) (ds : List Declaration) (delimiter : Text) (call : Place) :
    List Usage → Prop
  | none : IsBlock w ds delimiter call []
  | string {first : Node} {rest : List Node} {name : Text} {ns : Option Text} {s : Text} :
      lookupVariable? w.source call.node = some name →
      call.node.callArguments?.getD [] = first :: rest →
      (constant (w.context (w.scopes.scopeFor call)) 0 (some first)).outcome = .ok (.string s) →
      IsBlock w ds delimiter call (atCall w delimiter first name ns [s])
  | expands {first : Node} {rest : List Node} {name : Text} {ns : Option Text} {keys : List Text} :
      lookupVariable? w.source call.node = some name →
      call.node.callArguments?.getD [] = first :: rest → Expands w ds call first keys →
      IsBlock w ds delimiter call (atCall w delimiter first name ns keys)

theorem isBlock_of_ofCall (hl : Lexical w ds) (hc : call ∈ w.placesOf .callExpression)
    (h : (ofCall w fallback delimiter call).outcome = .ok us) : IsBlock w ds delimiter call us := by
  cases hv : lookupVariable? w.source call.node with
  | none =>
    simp only [ofCall, hv] at h
    cases h
    exact .none
  | some name =>
    obtain ⟨ns, -, ⟨-, rfl⟩ | ⟨first, rest, keys, hargs, hkeys, rfl⟩⟩ := ofCall_ok_cases h hv
    · exact .none
    · by_cases hs : ∃ s, (constant (w.context (w.scopes.scopeFor call)) 0 (some first)).outcome =
          .ok (.string s)
      · obtain ⟨s, hs⟩ := hs
        have hkeys' : (localKeys w (w.scopes.scopeFor call) first).outcome = .ok [s] := by
          rw [localKeys, Traced.bind_of_ok hs]
          rfl
        cases hkeys'.symm.trans hkeys
        exact .string hv hargs hs
      · by_cases hnil : keys = []
        · rw [hnil]
          exact .none
        · exact .expands hv hargs (expands_of_localKeys hl (List.mem_of_mem_filter hc)
            (fun s h => hs ⟨s, h⟩) hkeys hnil)

/-- A call looks some key up. -/
def LooksUp (w : Workplace) (fallback : Fallback) (delimiter : Text) (call : Place) : Prop :=
  ∃ u us, (ofCall w fallback delimiter call).outcome = .ok (u :: us)

/-- Usages are in the order of the source. They start one after the other; those of one call stand
together, in the order of the keys, and those of different calls do not start at the same place. -/
structure InOrder (w : Workplace) (ds : List Declaration) (fallback : Fallback) (delimiter : Text)
    (us : List Usage) : Prop where
  starts : us.Pairwise fun u v => u.start ≤ v.start
  blocks : ∃ blocks, us = blocks.flatten ∧
    List.Forall₂ (fun call block => (ofCall w fallback delimiter call).outcome = .ok block ∧
      IsBlock w ds delimiter call block) (w.placesOf .callExpression) blocks ∧
    blocks.Pairwise fun b b' => ∀ u ∈ b, ∀ v ∈ b', u.start < v.start

theorem inOrder_ofProgram (hw : w.Legal) (hl : Lexical w ds) (hnest : w.program.root.AllNest)
    (ht : ∀ call ∈ w.placesOf .callExpression, LooksUp w fallback delimiter call →
      call.node.typesHoldNoCall = true)
    (h : (ofProgram w fallback delimiter).outcome = .ok us) : InOrder w ds fallback delimiter us := by
  obtain ⟨blocks, hblocks, h⟩ := Traced.bind_ok_iff.1 h
  cases h
  have hall := Traced.mapM_ok_iff.1 hblocks
  have hlegal {call : Place} {first : Node} (hc : call.node ∈ w.program.root.preorder)
      (hf : call.node.FirstArgument w.source first) :
      w.program.Legal first ∧ first.kind ≠ .program := by
    obtain ⟨rest, hrest⟩ := hf.argument
    obtain ⟨m, hm, hfirst, -⟩ :=
      Accessor.holds_of_callArguments hc (a := first) (by rw [hrest]; exact List.mem_cons_self)
    exact ⟨hw.program _ (Place.child_mem_preorder hm hfirst), (hw.program m hm).children _ hfirst⟩
  -- The usages of one call start at one place, and those of two calls in the order of the calls.
  have hlt : blocks.Pairwise fun b b' => ∀ u ∈ b, ∀ v ∈ b', u.start < v.start := by
    refine Pointwise.pairwise hall (Workplace.pairwise_placesOf hnest rfl)
      fun c hc e he b b' hbefore hb hb' u hu v hv => ?_
    have htypes : c.node.typesHoldNoCall = true := by
      obtain ⟨u', us', rfl⟩ := List.exists_cons_of_ne_nil (List.ne_nil_of_mem hu)
      exact ht c hc ⟨u', us', hb⟩
    obtain ⟨hc, hck⟩ := Workplace.mem_of_placesOf hc
    obtain ⟨he, hek⟩ := Workplace.mem_of_placesOf he
    obtain ⟨x, hx, hux⟩ := start_of_ofCall hb hu
    obtain ⟨y, hy, hvy⟩ := start_of_ofCall hb' hv
    obtain ⟨hxl, hxk⟩ := hlegal hc hx
    obtain ⟨hyl, hyk⟩ := hlegal he hy
    rw [hux, hvy]
    exact hxl.charOffset_lt hyl hxk hyk
      ((hnest.of_mem hc).argument_lt (hnest.of_mem he) hck hek hx hy htypes hbefore)
  refine ⟨List.pairwise_flatten.2 ⟨fun b hb => ?_, hlt.imp fun h u hu v hv =>
    Nat.le_of_lt (h u hu v hv)⟩, blocks, rfl, ?_, hlt⟩
  · obtain ⟨c, -, hcb⟩ := Pointwise.exists_of_mem_right hall hb
    exact List.pairwise_of_forall_mem_list fun u hu v hv =>
      Nat.le_of_eq (start_eq_of_ofCall hcb hu hv)
  · exact Pointwise.imp hall fun c hc b hb => ⟨hb, isBlock_of_ofCall hl hc hb⟩

end Usage

namespace Program

/-- **Results come in the order of the source.** The accessors of a text start one after the other.
If no call that looks a key up has a call inside the types it is applied to, the usages of the text
are in order too: their starts do not go down, those of one call stand together in the order of the
list that they come from, and those of different calls start at different places. -/
theorem discovered_inOrder (code label : Text) (importer : Option Importer) :
    (∀ as, (Accessor.discover code label importer).outcome = .ok as →
      as.Pairwise fun a b => a.location.start < b.location.start) ∧
    ∀ fallback delimiter us,
      (Usage.discover code fallback importer delimiter label).outcome = .ok us →
      (ofText code).outcome = .ok none ∧ us = [] ∨
        ∃ p imports w, (ofText code).outcome = .ok (some p) ∧ Import.ofProgram p = .ok imports ∧
          (Workplace.ofProgram p importer label).outcome = .ok w ∧
          ((∀ call ∈ w.placesOf .callExpression, Usage.LooksUp w fallback delimiter call →
              call.node.typesHoldNoCall = true) →
            Usage.InOrder w (Declaration.ofProgram p imports) fallback delimiter us) := by
  have hread {p : Program} {w : Workplace} (hp : (ofText code).outcome = .ok (some p))
      (hw : (Workplace.ofProgram p importer label).outcome = .ok w) :
      w.Legal ∧ w.program.root.AllNest := by
    obtain ⟨hl, rfl, -⟩ := Workplace.legal (legal_of_read hp) (kind_root_of_ofText hp) hw
    exact ⟨hl, allNest_of_read hp⟩
  refine ⟨fun as h => ?_, fun fallback delimiter us h => ?_⟩
  · obtain ⟨r, hr, h⟩ := Traced.bind_ok_iff.1 h
    cases r with
    | none =>
      cases h
      exact .nil
    | some p =>
      obtain ⟨w, hw, h⟩ := Traced.bind_ok_iff.1 h
      obtain ⟨hl, hnest⟩ := hread hr hw
      exact Accessor.pairwise_ofProgram hl hnest h
  · obtain ⟨r, hr, h⟩ := Traced.bind_ok_iff.1 h
    cases r with
    | none =>
      cases h
      exact .inl ⟨hr, rfl⟩
    | some p =>
      obtain ⟨w, hw, h⟩ := Traced.bind_ok_iff.1 h
      obtain ⟨imports, himports⟩ := Import.ofProgram_ok (legal_of_read hr)
      obtain ⟨hl, hnest⟩ := hread hr hw
      exact .inr ⟨p, imports, w, hr, himports, hw, fun ht =>
        Usage.inOrder_ofProgram hl (Usage.lexical_of_read hr himports hw) hnest ht h⟩

section Example

/-- A program with a lookup in the arguments of another, that in a callback. -/
def crowded : Text :=
  text "const t=useTranslations('n'),u=useTranslations('m'),xs=['b','a'];" ++
    text "xs.map(i=>t<N>(i,u.rich('c')))"

/-- The usages of `crowded`. -/
def crowdedUsages : List Usage :=
  [⟨text "n.b", 80, 81, false, text "t", some (text "n")⟩,
    ⟨text "n.a", 80, 81, false, text "t", some (text "n")⟩,
    ⟨text "m.c", 89, 92, true, text "u", some (text "m")⟩]

/-- The accessors and the usages of `crowded` are in order. -/
theorem discovered_inOrder_crowded :
    (∃ a b, (Accessor.discover crowded [] none).outcome = .ok [a, b] ∧
      a.location.start < b.location.start) ∧
    ∃ w ds, (Usage.discover crowded [] none Usage.defaultDelimiter []).outcome = .ok crowdedUsages ∧
      Usage.InOrder w ds [] Usage.defaultDelimiter crowdedUsages := by
  have hrun : (Accessor.discover crowded [] none).outcome.toOption =
        some [⟨text "t", .static (text "n"), ⟨6, 28, 1⟩⟩, ⟨text "u", .static (text "m"), ⟨29, 51, 1⟩⟩] ∧
      (Usage.discover crowded [] none Usage.defaultDelimiter []).outcome.toOption =
        some crowdedUsages ∧
      (do
        let p ← (ofText crowded).outcome.toOption.join
        let w ← (Workplace.ofProgram p none []).outcome.toOption
        return (w.placesOf .callExpression).all fun call => call.node.typesHoldNoCall) =
        some true := by
    decide +kernel
  obtain ⟨has, hus, htypes⟩ := hrun
  have has := Traced.outcome_of_toOption has
  have hus := Traced.outcome_of_toOption hus
  obtain ⟨haccessors, husages⟩ := discovered_inOrder crowded [] none
  refine ⟨⟨_, _, has, (List.pairwise_cons.1 (haccessors _ has)).1 _ List.mem_cons_self⟩, ?_⟩
  rcases husages [] Usage.defaultDelimiter _ hus with ⟨-, h⟩ | ⟨p, imports, w, hp, -, hw, h⟩
  · cases h
  · refine ⟨w, _, hus, h fun call hcall _ => ?_⟩
    simp only [bind, Option.bind_eq_some_iff, Option.join_eq_some_iff] at htypes
    obtain ⟨p', hp', w', hw', htypes⟩ := htypes
    cases hp.symm.trans (Traced.outcome_of_toOption hp')
    cases hw.symm.trans (Traced.outcome_of_toOption hw')
    exact List.all_eq_true.1 (Option.some.inj htypes) call hcall

end Example

end Program

end KeyTrace
