/-
The strings that folding finds are those with a derivation.

An expression requires its parts: a `+` its operands, a template its expressions, a
wrapper what it holds, a variable its initializer. `Derives` evaluates an expression to a
string by evaluating all that it requires, with a bound on the steps that take depth.
Folding to a string at a depth is the same as a derivation within what is left of the
depth (`constant_string_iff`), and what has a derivation requires nothing without end.
-/
import KeyTrace.Proofs.Fold.Arrays

namespace KeyTrace

namespace Fold

section Names

theorem exported?_of_empty {p : Program} (h : (Program.ofText []).outcome = .ok (some p))
    (name : Text) : p.exported? name = none := by
  obtain ⟨q, hq, hempty⟩ :
      ∃ q, (Program.ofText []).outcome = .ok (some q) ∧ q.root.children = [] := ⟨_, rfl, rfl⟩
  rw [hq] at h
  cases h
  rw [Program.exported?, hempty]
  rfl

theorem foldName_of_follows {ctx ctx' : Context} {name : Node} {m : Option Node}
    (h : Follows ctx name ctx' m) (constantIn : Context → Option Node → Traced Folded) :
    (foldName constantIn ctx name).outcome = (constantIn ctx' m).outcome := by
  cases h with
  | declared hd => rw [foldName, hd]
  | @imported i importer exportName code p d hl himp hnamed hname ht hp hd =>
    cases code with
    | nil =>
      rw [exported?_of_empty hp] at hd
      cases hd
    | cons c cs =>
      have hrequest : (importer.request i.module).outcome = .ok (some (c :: cs)) := ht
      rw [foldName, hl]
      simp only [foldImport, himp, hname, hnamed, Bool.not_true, Bool.false_eq_true, if_false]
      rw [Traced.bind_of_ok hrequest]
      dsimp only
      rw [Traced.bind_of_ok hp]
      simp only [hd]

end Names

/-- Folding an expression to a string requires folding another to a string in the same scope, which
may take a step of the depth. -/
inductive Requires (ctx : Context) : Option Node → (deeper : Bool) → Option Node → Prop
  | wrapped {a : Node} : a.shape = .wrapper → Requires ctx (some a) false a.wrapped?
  | left {a : Node} : a.kind = .binaryExpression .plus → Requires ctx (some a) true (a.child? .left)
  | right {a : Node} : a.kind = .binaryExpression .plus →
      Requires ctx (some a) true (a.child? .right)
  | expression {a : Node} {t : Literal.Template} {e : Option Node} : a.shape = .template →
      Literal.Template.ofNode ctx.source a = .ok t → e ∈ t.expressions →
      Requires ctx (some a) true e
  | initializer {a : Node} {d : Place} : a.shape = .identifier →
      ctx.lookup (a.text ctx.source) = some (.declared d) →
      Requires ctx (some a) true (d.node.child? .value)

/-- An expression evaluates to a string, with at most `k` steps of the depth on the way to any of
what it requires. -/
inductive Derives : Context → (k : Nat) → Option Node → Text → Prop
  | string {ctx : Context} {k : Nat} {a : Node} {s : Text} : a.shape = .string →
      Literal.stringValue ctx.source a = .ok s → Derives ctx k (some a) s
  | wrapped {ctx : Context} {k : Nat} {a : Node} {s : Text} : a.shape = .wrapper →
      Derives ctx k a.wrapped? s → Derives ctx k (some a) s
  | plus {ctx : Context} {k : Nat} {a : Node} {l r : Text} : a.kind = .binaryExpression .plus →
      Derives ctx k (a.child? .left) l → Derives ctx k (a.child? .right) r →
      Derives ctx (k + 1) (some a) (l ++ r)
  | template {ctx : Context} {j k : Nat} {a : Node} {t : Literal.Template} {values : List Text} :
      a.shape = .template → Literal.Template.ofNode ctx.source a = .ok t →
      (t.expressions ≠ [] → j < k) → t.expressions.length = values.length →
      (∀ p ∈ t.expressions.zip values, Derives ctx j p.1 p.2) →
      Derives ctx k (some a) (t.fill values)
  /-- A variable, or a name that a module exports, has its value. -/
  | name {ctx ctx' : Context} {k : Nat} {a : Node} {m : Option Node} {s : Text} :
      a.shape = .identifier → Follows ctx a ctx' m → Derives ctx' k m s →
      Derives ctx (k + 1) (some a) s

theorem exists_mem_zip {α β : Type} {l : List α} {m : List β} (hlen : l.length = m.length) {a : α}
    (ha : a ∈ l) : ∃ b, (a, b) ∈ l.zip m := by
  have hzip : List.Forall₂ (fun a b => (a, b) ∈ l.zip m) l m := List.forall₂_iff_zip.2 ⟨hlen, id⟩
  obtain ⟨b, -, hb⟩ := Pointwise.exists_of_mem_left hzip ha
  exact ⟨b, hb⟩

section Folding

variable {ctx : Context} {n m : Option Node} {a : Node} {s : Text}

theorem derives_of_unwrap {k : Nat} {x : Node} (hx : x.unwrap? = some a)
    (h : Derives ctx k (some a) s) : Derives ctx k (some x) s := by
  rw [Node.unwrap?_eq] at hx
  split at hx
  · next hs =>
    obtain ⟨c, hc, hca⟩ := Option.bind_eq_some_iff.1 hx
    have hlt := Node.sizeOf_lt (Node.mem_of_wrapped? hc)
    exact .wrapped hs (hc ▸ derives_of_unwrap hca h)
  · cases hx
    exact h
termination_by sizeOf x

theorem folder_of_unwrap (b : Nat) (h : unwrapOf n = unwrapOf m) :
    (folder b ctx).constant n = (folder b ctx).constant m := by
  cases b with
  | zero => rfl
  | succ b => simp only [folder, Folder.next, h]

theorem folder_unwrapped (b : Nat) (h : a.shape ≠ .wrapper) :
    (folder (b + 1) ctx).constant (some a) = foldShape ctx (folder b) a := by
  have hu : unwrapOf (some a) = some a := Node.unwrap?_of_shape h
  simp only [folder, Folder.next, hu]

theorem constant_of_le {depth : Int} (h : depth ≤ maxDepth) (hu : unwrapOf n = some a) :
    constant ctx depth n = foldShape ctx (folder (budget (depth + 1))) a := by
  rw [constant, budget_of_le h]
  simp only [folder, Folder.next, hu]

theorem unwrapOf_wrapped (h : a.shape = .wrapper) : unwrapOf (some a) = unwrapOf a.wrapped? := by
  rw [unwrapOf, Option.bind_some, Node.unwrap?_eq, if_pos h]
  rfl

theorem derives_of_shape {k : Nat} (hpart : ∀ {ctx n s},
      ((folder k ctx).constant n).outcome = .ok (.string s) → ∃ j, k = j + 1 ∧ Derives ctx j n s)
    (h : (foldShape ctx (folder k) a).outcome = .ok (.string s)) : Derives ctx k (some a) s := by
  generalize hv : Folded.string s = v at h
  cases foldShape_ok_iff.1 h with
  | string hs hs' =>
    cases hv
    exact .string hs hs'
  | array hs h =>
    subst hv
    cases foldElements_elements h
  | identifier hs h =>
    subst hv
    rcases foldName_cases ctx a with ⟨ctx₁, m, hm, he⟩ | ⟨o, ho, he⟩
    · obtain ⟨j, rfl, hj⟩ := hpart ((he _).symm.trans h)
      exact .name hs hm hj
    · cases ho.dynamic _ ((he _).symm.trans h)
  | @template o hs ho =>
    cases o with
    | none => cases hv
    | some u =>
      cases hv
      obtain ⟨t, values, ht, hvalues, rfl⟩ := foldTemplate_eq_some_iff.1 ho
      obtain ⟨hlen, hzip⟩ := List.forall₂_iff_zip.1 hvalues
      -- Only its expressions take a step: a template without any needs none.
      refine .template (j := k - 1) hs ht (fun hne => ?_) hlen fun p hp => ?_
      · obtain ⟨e, he⟩ := List.exists_mem_of_ne_nil _ hne
        obtain ⟨v, -, hv⟩ := Pointwise.exists_of_mem_left hvalues he
        obtain ⟨j, rfl, -⟩ := hpart hv
        exact Nat.lt_succ_self j
      · obtain ⟨j, rfl, hj⟩ := hpart (hzip hp)
        exact hj
  | plus hk hl hr =>
    cases hv
    obtain ⟨j, rfl, hleft⟩ := hpart hl
    obtain ⟨j', hj, hright⟩ := hpart hr
    cases hj
    exact .plus hk hleft hright
  | left | right | other => cases hv

/-- Where folding finds a string there is a derivation. -/
theorem derives_of_folder : ∀ {b : Nat} {ctx : Context} {n : Option Node} {s : Text},
    ((folder b ctx).constant n).outcome = .ok (.string s) → ∃ k, b = k + 1 ∧ Derives ctx k n s
  | 0, _, _, _, h => by cases h
  | k + 1, ctx, n, s, h => by
    simp only [folder, Folder.next] at h
    cases ha : unwrapOf n with
    | none =>
      rw [ha] at h
      cases h
    | some a =>
      rw [ha] at h
      obtain ⟨x, rfl, hx⟩ := Option.bind_eq_some_iff.1 ha
      exact ⟨k, rfl, derives_of_unwrap hx (derives_of_shape derives_of_folder h)⟩

/-- A derivation is found by folding, if there are as many steps left as it takes. -/
theorem folder_of_derives {k : Nat} (h : Derives ctx k n s) :
    ((folder (k + 1) ctx).constant n).outcome = .ok (.string s) := by
  induction h with
  | string hs hv =>
    rw [folder_unwrapped _ (by simp [hs])]
    exact foldShape_ok_iff.2 (.string hs hv)
  | wrapped hs _ ih => rw [folder_of_unwrap _ (unwrapOf_wrapped hs), ih]
  | plus hk _ _ ihl ihr =>
    rw [folder_unwrapped _ (by simp [shape_of_plus hk])]
    exact foldShape_ok_iff.2 (.plus hk ihl ihr)
  | @template ctx j k a t values hs ht hjk hlen _ ih =>
    rw [folder_unwrapped _ (by simp [hs])]
    refine foldShape_ok_iff.2 (.template (o := some (t.fill values)) hs ?_)
    refine foldTemplate_eq_some_iff.2
      ⟨t, values, ht, List.forall₂_iff_zip.2 ⟨hlen, fun {e v} hp => ?_⟩, rfl⟩
    have hlt : j < k := hjk (List.ne_nil_of_mem (List.of_mem_zip hp).1)
    exact ((folder_refines hlt).constant ctx e).string v (ih _ hp)
  | name hs hf _ ih =>
    rw [folder_unwrapped _ (by simp [hs])]
    exact foldShape_ok_iff.2 (.identifier hs ((foldName_of_follows hf _).trans ih))

theorem Derives.returns {k : Nat} (h : Derives ctx k n s) :
    ∀ b, ∃ v, ((folder b ctx).constant n).outcome = .ok v := by
  -- Without a budget everything is dynamic. With one, what is required returns, and the shape says
  -- what becomes of it.
  induction h with
  | string hs hv =>
    rintro (_ | b)
    · exact ⟨_, rfl⟩
    · rw [folder_unwrapped _ (by simp [hs])]
      exact ⟨_, foldShape_ok_iff.2 (.string hs hv)⟩
  | wrapped hs _ ih =>
    intro b
    rw [folder_of_unwrap _ (unwrapOf_wrapped hs)]
    exact ih b
  | plus hk _ _ ihl ihr =>
    rintro (_ | b)
    · exact ⟨_, rfl⟩
    · rw [folder_unwrapped _ (by simp [shape_of_plus hk])]
      simp only [foldShape_ok_iff]
      obtain ⟨l, hl⟩ := ihl b
      obtain ⟨r, hr⟩ := ihr b
      cases l with
      | string l =>
        cases r with
        | string r => exact ⟨_, .plus hk hl hr⟩
        | dynamic | strings | records => exact ⟨_, .right hk hl hr nofun⟩
      | dynamic | strings | records => exact ⟨_, .left hk hl nofun⟩
  | @template ctx j k a t values hs ht _ hlen _ ih =>
    rintro (_ | b)
    · exact ⟨_, rfl⟩
    · rw [folder_unwrapped _ (by simp [hs])]
      have hparts : ∀ part ∈ t.rest, ∃ v, ((folder b ctx).constant part.1).outcome = .ok v := by
        intro part hp
        obtain ⟨v, hv⟩ := exists_mem_zip hlen (List.mem_map_of_mem hp)
        exact ih _ hv b
      obtain ⟨o, ho⟩ := joinTemplate_returns t.first hparts
      have htemplate : (foldTemplate ctx.source (folder b ctx).constant a).outcome = .ok o :=
        Traced.bind_ok_iff.2 ⟨t, Traced.ofCooked_ok_iff.2 ht, ho⟩
      exact ⟨_, foldShape_ok_iff.2 (.template hs htemplate)⟩
  | name hs hf _ ih =>
    rintro (_ | b)
    · exact ⟨_, rfl⟩
    · rw [folder_unwrapped _ (by simp [hs])]
      obtain ⟨v, hv⟩ := ih b
      exact ⟨v, foldShape_ok_iff.2 (.identifier hs ((foldName_of_follows hf _).trans hv))⟩

/-- **Folding finds the strings that have a derivation**, within what is left of the depth. -/
theorem constant_string_iff {depth : Int} :
    (constant ctx depth n).outcome = .ok (.string s) ↔
      depth ≤ maxDepth ∧ Derives ctx (maxDepth - depth).toNat n s := by
  have hbudget (h : depth ≤ maxDepth) : budget depth = (maxDepth - depth).toNat + 1 := by
    simp only [budget, maxDepth] at h ⊢
    omega
  constructor
  · intro h
    have hd : depth ≤ maxDepth := by
      refine Int.not_lt.1 fun hlt => ?_
      rw [constant, budget_of_lt hlt] at h
      cases h
    rw [constant, hbudget hd] at h
    obtain ⟨k, hk, hderives⟩ := derives_of_folder h
    cases hk
    exact ⟨hd, hderives⟩
  · rintro ⟨hd, h⟩
    rw [constant, hbudget hd]
    exact folder_of_derives h

end Folding

section Chains

variable {ctx : Context} {n m : Option Node} {s : Text} {k : Nat} {deeper : Bool}

/-- What a derivation requires has a derivation, with a step less if that takes one. -/
theorem Derives.required (h : Derives ctx k n s) (hr : Requires ctx n deeper m) :
    ∃ j v, j + deeper.toNat ≤ k ∧ Derives ctx j m v := by
  have hshape {a : Node} {x y : Shape} (hx : a.shape = x) (hy : a.shape = y) (hne : x ≠ y) :
      False := hne (hx.symm.trans hy)
  -- The shape of the expression leaves one way to derive it and the requirements of that way.
  cases h with
  | string hs hv =>
    cases hr with
    | wrapped hs' | expression hs' | initializer hs' => exact (hshape hs hs' nofun).elim
    | left hk | right hk => exact (hshape hs (shape_of_plus hk) nofun).elim
  | wrapped hs hd =>
    cases hr with
    | wrapped => exact ⟨k, s, Nat.le_refl k, hd⟩
    | expression hs' | initializer hs' => exact (hshape hs hs' nofun).elim
    | left hk | right hk => exact (hshape hs (shape_of_plus hk) nofun).elim
  | @plus ctx k a l r hk hl hr' =>
    cases hr with
    | wrapped hs' | expression hs' | initializer hs' =>
      exact (hshape (shape_of_plus hk) hs' nofun).elim
    | left => exact ⟨k, l, Nat.le_refl _, hl⟩
    | right => exact ⟨k, r, Nat.le_refl _, hr'⟩
  | @template ctx j k a t values hs ht hjk hlen hparts =>
    cases hr with
    | wrapped hs' | initializer hs' => exact (hshape hs hs' nofun).elim
    | left hk | right hk => exact (hshape hs (shape_of_plus hk) nofun).elim
    | expression _ ht' he =>
      cases ht.symm.trans ht'
      obtain ⟨v, hv⟩ := exists_mem_zip hlen he
      exact ⟨j, v, hjk (List.ne_nil_of_mem he), hparts _ hv⟩
  | @name ctx ctx' k a m' s hs hf hd =>
    cases hr with
    | wrapped hs' | expression hs' => exact (hshape hs hs' nofun).elim
    | left hk | right hk => exact (hshape hs (shape_of_plus hk) nofun).elim
    | initializer _ hl =>
      cases hf with
      | declared hl' =>
        cases hl.symm.trans hl'
        exact ⟨k, s, Nat.le_refl _, hd⟩
      | imported hl' => cases hl.symm.trans hl'

theorem Requires.sizeOf_lt (h : Requires ctx n false m) : sizeOf m < sizeOf n := by
  cases h with
  | @wrapped a hs =>
    cases hw : a.wrapped? with
    | none =>
      have : 0 < sizeOf a := by
        cases a
        simp only [Node.mk.sizeOf_spec]
        omega
      simp only [Option.none.sizeOf_spec, Option.some.sizeOf_spec]
      omega
    | some c =>
      have := Node.sizeOf_lt (Node.mem_of_wrapped? hw)
      simp only [Option.some.sizeOf_spec]
      omega

theorem Derives.acc : ∀ {k : Nat} {n : Option Node} {s : Text}, Derives ctx k n s →
    Acc (fun m n => ∃ deeper, Requires ctx n deeper m) n
  | k, n, _, h => by
    refine .intro n fun m ⟨deeper, hr⟩ => ?_
    obtain ⟨j, v, hjk, hd⟩ := h.required hr
    have hless : j < k ∨ j = k ∧ sizeOf m < sizeOf n := by
      cases deeper with
      | false =>
        have := hr.sizeOf_lt
        simp only [Bool.toNat_false] at hjk
        omega
      | true =>
        simp only [Bool.toNat_true] at hjk
        omega
    exact hd.acc
termination_by k n => (k, sizeOf n)
decreasing_by exact Prod.lex_def.2 hless

/-- One expression requires another over a chain with so many steps of the depth. -/
inductive Chain (ctx : Context) : Option Node → Nat → Option Node → Prop
  | refl {n : Option Node} : Chain ctx n 0 n
  | step {n m m' : Option Node} {deeper : Bool} {c : Nat} : Requires ctx n deeper m →
      Chain ctx m c m' → Chain ctx n (c + deeper.toNat) m'

theorem Chain.le {c : Nat} (hc : Chain ctx n c m) (h : Derives ctx k n s) : c ≤ k := by
  induction hc generalizing k s with
  | refl => exact Nat.zero_le k
  | step hr _ ih =>
    obtain ⟨j, v, hjk, hd⟩ := h.required hr
    have := ih hd
    omega

end Chains

end Fold
end KeyTrace
