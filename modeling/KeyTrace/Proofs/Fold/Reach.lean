/-
What folding an expression looks at: its parts, the names in them, and the values
that the names stand for. Folding depends on names through these names alone.
-/
import KeyTrace.Proofs.Fold.Congruence

namespace KeyTrace.Fold

/-- The object literal that an element of an array literal is. -/
def IsRecord (n : Option Node) (o : Node) : Prop :=
  ∃ a, unwrapOf n = some a ∧ a.shape = .array ∧
    ∃ c ∈ a.children, c.unwrap? = some o ∧ o.shape = .object

/-- Folding the first expression folds the second one in the same place. -/
inductive Part (source : Source) (n : Option Node) : Option Node → Prop
  | element {a c : Node} : unwrapOf n = some a → a.shape = .array → c ∈ a.children →
      Part source n (some c)
  | property {o p k : Node} : IsRecord n o → p ∈ o.children → p.kind = .pair →
      p.child? .key = some k → k.kind = .propertyIdentifier → Part source n (p.child? .value)
  | substitution {a : Node} {t : Literal.Template} {e : Option Node} : unwrapOf n = some a →
      a.shape = .template → Literal.Template.ofNode source a = .ok t → e ∈ t.expressions →
      Part source n e
  | left {a : Node} : unwrapOf n = some a → a.kind = .binaryExpression .plus →
      Part source n (a.child? .left)
  | right {a : Node} : unwrapOf n = some a → a.kind = .binaryExpression .plus →
      Part source n (a.child? .right)

/-- Folding an expression looks a name up. -/
inductive Mentions (n : Option Node) : Node → Prop
  | identifier {a : Node} : unwrapOf n = some a → a.shape = .identifier → Mentions n a
  | shorthand {o p : Node} : IsRecord n o → p ∈ o.children →
      p.kind = .shorthandPropertyIdentifier → Mentions n p

theorem Part.shape {source : Source} {n m : Option Node} {a : Node} (h : Part source n m)
    (ha : unwrapOf n = some a) : a.shape = .array ∨ a.shape = .template ∨ a.shape = .binary := by
  cases h with
  | element hb hs _ => exact .inl (Option.some.inj (ha.symm.trans hb) ▸ hs)
  | property ho =>
    obtain ⟨b, hb, hs, _⟩ := ho
    exact .inl (Option.some.inj (ha.symm.trans hb) ▸ hs)
  | substitution hb hs _ _ => exact .inr (.inl (Option.some.inj (ha.symm.trans hb) ▸ hs))
  | left hb hk | right hb hk =>
    rw [Option.some.inj (ha.symm.trans hb), Node.shape, hk]
    exact .inr (.inr rfl)

theorem Mentions.shape {n : Option Node} {a name : Node} (h : Mentions n name)
    (ha : unwrapOf n = some a) : a.shape = .array ∨ a.shape = .identifier ∧ name = a := by
  cases h with
  | identifier hb hs =>
    obtain rfl := Option.some.inj (ha.symm.trans hb)
    exact .inr ⟨hs, rfl⟩
  | shorthand ho =>
    obtain ⟨b, hb, hs, _⟩ := ho
    exact .inl (Option.some.inj (ha.symm.trans hb) ▸ hs)

/-- A name stands for the value of an expression, which may be in another module. -/
inductive Follows (ctx : Context) (name : Node) : Context → Option Node → Prop
  | declared {d : Place} : ctx.lookup (name.text ctx.source) = some (.declared d) →
      Follows ctx name ctx (d.node.child? .value)
  | imported {i : Import} {importer : Importer} {exportName code : Text} {p : Program} {d : Node} :
      ctx.lookup (name.text ctx.source) = some (.imported i) → ctx.importer = some importer →
      i.isNamed = true → i.name = some exportName → (importer i.module).text = .ok (some code) →
      (Program.ofText code).outcome = .ok (some p) → p.exported? exportName = some d →
      Follows ctx name (.alone p.source) (d.child? .value)

/-- Folding an expression in one context may come to an expression in another. -/
inductive Reaches : Context → Option Node → Context → Option Node → Prop
  | refl {ctx : Context} {n : Option Node} : Reaches ctx n ctx n
  | part {ctx ctx' : Context} {n m m' : Option Node} : Part ctx.source n m →
      Reaches ctx m ctx' m' → Reaches ctx n ctx' m'
  | follow {ctx ctx₁ ctx' : Context} {n m m' : Option Node} {name : Node} : Mentions n name →
      Follows ctx name ctx₁ m → Reaches ctx₁ m ctx' m' → Reaches ctx n ctx' m'

/-- In a module on its own, no name is followed. -/
theorem not_follows_alone {source : Source} {name : Node} {ctx : Context} {m : Option Node} :
    ¬ Follows (.alone source) name ctx m := by
  intro h
  cases h with
  | declared hl => cases hl
  | imported hl => cases hl

theorem Reaches.eq_alone {source : Source} {n m : Option Node} {ctx : Context}
    (h : Reaches (.alone source) n ctx m) : ctx = .alone source := by
  generalize hc : Context.alone source = c at h
  induction h with
  | refl => rfl
  | part _ _ ih => exact ih hc
  | follow _ hf _ _ =>
    subst hc
    exact absurd hf not_follows_alone

/-- Folding an expression without parts and names comes to no other expression. -/
theorem Reaches.eq_of_plain {ctx ctx' : Context} {n m : Option Node} {a : Node}
    (h : Reaches ctx n ctx' m) (ha : unwrapOf n = some a) (hs : a.shape = .string ∨
      a.shape = .object) : ctx' = ctx ∧ m = n := by
  cases h with
  | refl => exact ⟨rfl, rfl⟩
  | part hp _ => rcases hs with hs | hs <;> simpa [hs] using hp.shape ha
  | follow hn _ _ => rcases hs with hs | hs <;> simpa [hs] using hn.shape ha

/-- Two ways of looking names up agree on all that folding an expression looks up in its own
program. -/
def Agree (ctx : Context) (lookup : Lookup) (n : Option Node) : Prop :=
  ∀ m name, Reaches ctx n ctx m → Mentions m name →
    ctx.lookup (name.text ctx.source) = lookup (name.text ctx.source)

namespace Agree

variable {ctx : Context} {lookup : Lookup} {n m : Option Node}

theorem part (h : Agree ctx lookup n) (hm : Part ctx.source n m) : Agree ctx lookup m :=
  fun _ _ hr => h _ _ (.part hm hr)

theorem declared (h : Agree ctx lookup n) {name : Node} (hn : Mentions n name) {d : Place}
    (hd : ctx.lookup (name.text ctx.source) = some (.declared d)) :
    Agree ctx lookup (d.node.child? .value) :=
  fun _ _ hr => h _ _ (.follow hn (.declared hd) hr)

theorem lookup_eq (h : Agree ctx lookup n) {name : Node} (hn : Mentions n name) :
    ctx.lookup (name.text ctx.source) = lookup (name.text ctx.source) :=
  h _ _ .refl hn

end Agree

/-- A property of a record is a name that is looked up, or has a value that is folded. -/
theorem property_cases {source : Source} {n : Option Node} {o p : Node} (ho : IsRecord n o)
    (hp : p ∈ o.children) {name : Text} (hn : propertyName? source p = some name) :
    (Mentions n p ∧ ∀ f, propertyValue f p = f.name p) ∨
      (Part source n (p.child? .value) ∧ ∀ f, propertyValue f p = f.constant (p.child? .value)) := by
  unfold propertyName? at hn
  unfold propertyValue
  split at hn
  · next hk => exact .inl ⟨.shorthand ho hp hk, fun f => if_pos hk⟩
  · next hk =>
    split at hn
    · next k hkey =>
      split at hn
      · next hpk =>
        exact .inr ⟨.property ho hp hk hkey hpk, fun f => if_neg (by simp [hk])⟩
      · cases hn
    · cases hn
  · cases hn

section Agreement

variable {ctx : Context} {lookup : Lookup} {n : Option Node} {a : Node}

/-- The context with another way of looking names up. -/
def Context.withLookup (ctx : Context) (lookup : Lookup) : Context := { ctx with lookup := lookup }

theorem foldName_congr {constantIn : Context → Option Node → Traced Folded}
    (h : ctx.lookup (a.text ctx.source) = lookup (a.text ctx.source))
    (hd : ∀ d : Place, ctx.lookup (a.text ctx.source) = some (.declared d) →
      constantIn ctx (d.node.child? .value) =
        constantIn (ctx.withLookup lookup) (d.node.child? .value)) :
    foldName constantIn ctx a = foldName constantIn (ctx.withLookup lookup) a := by
  have hl : (ctx.withLookup lookup).lookup (a.text (ctx.withLookup lookup).source) =
      ctx.lookup (a.text ctx.source) := h.symm
  unfold foldName
  rw [hl]
  cases hb : ctx.lookup (a.text ctx.source) with
  | none => rfl
  | some b =>
    cases b with
    | declared d => exact hd d hb
    | imported | parameter | other => rfl

/-- What can be folded with some budget is the same for another way of looking names up. -/
structure Folder.Same (lookup : Lookup) (f f' : Folder) (ctx : Context) : Prop where
  constant : ∀ {n}, Agree ctx lookup n → f.constant n = f'.constant n
  name : ∀ {n k}, Agree ctx lookup n → Mentions n k → f.name k = f'.name k

theorem foldRecord_withLookup {f f' : Folder} (hf : Folder.Same lookup f f' ctx)
    (h : Agree ctx lookup n) {o : Node} (ho : IsRecord n o) :
    foldRecord ctx.source f o = foldRecord ctx.source f' o := by
  refine foldRecord_related Traced.congruence_eq (List.forall₂_same.2 fun p hp => ⟨rfl, ?_⟩)
  intro hn
  obtain ⟨name, hn⟩ := Option.ne_none_iff_exists'.1 hn
  rcases property_cases ho hp hn with ⟨hk, hv⟩ | ⟨hm, hv⟩
  · rw [hv, hv, hf.name h hk]
  · rw [hv, hv, hf.constant (h.part hm)]

theorem foldElement_withLookup {f f' : Folder} (hf : Folder.Same lookup f f' ctx)
    (h : Agree ctx lookup n) (ha : unwrapOf n = some a) (hs : a.shape = .array) {c : Node}
    (hc : c ∈ a.children) : foldElement ctx.source f c = foldElement ctx.source f' c :=
  foldElement_related Traced.congruence_eq (hf.constant (h.part (.element ha hs hc)))
    (Pointwise.option_same fun _ hu =>
      ⟨rfl, fun ho => foldRecord_withLookup hf h ⟨a, ha, hs, c, hc, hu, ho⟩⟩)

theorem foldTemplate_withLookup {f f' : Folder} (hf : Folder.Same lookup f f' ctx)
    (h : Agree ctx lookup n) (ha : unwrapOf n = some a) (hs : a.shape = .template) :
    foldTemplate ctx.source f.constant a = foldTemplate ctx.source f'.constant a := by
  refine Traced.congruence_eq.bind rfl fun t ht => ?_
  rw [Traced.ofCooked_ok_iff] at ht
  exact joinTemplate_related Traced.congruence_eq _ (List.forall₂_same.2 fun p hp =>
    ⟨hf.constant (h.part (.substitution ha hs ht (List.mem_map_of_mem hp))), rfl⟩)

theorem partsRelated_withLookup {below : Context → Folder}
    (hf : Folder.Same lookup (below ctx) (below (ctx.withLookup lookup)) ctx)
    (h : Agree ctx lookup n) (ha : unwrapOf n = some a) :
    PartsRelated (fun x y => x = y) ctx (ctx.withLookup lookup) below a a where
  shape := rfl
  string _ := rfl
  array hs := List.forall₂_same.2 fun _ hc => foldElement_withLookup hf h ha hs hc
  identifier hs :=
    have hk : Mentions n a := .identifier ha hs
    foldName_congr (h.lookup_eq hk) fun _ hd => hf.constant (h.declared hk hd)
  template hs := foldTemplate_withLookup hf h ha hs
  binary _ := rfl
  left hk := hf.constant (h.part (.left ha hk))
  right hk := hf.constant (h.part (.right ha hk))

/-- Folding depends on what names mean through the names that it looks up. -/
theorem folder_withLookup (ctx : Context) (lookup : Lookup) : ∀ b : Nat,
    Folder.Same lookup (folder b ctx) (folder b (ctx.withLookup lookup)) ctx
  | 0 => {
      constant := fun _ => rfl
      name := fun h hk => foldName_congr (h.lookup_eq hk) fun _ _ => rfl }
  | b + 1 => by
    have ih := folder_withLookup ctx lookup b
    refine ⟨fun {n} h => ?_, fun h hk => ?_⟩
    · exact next_related Traced.congruence_eq (Pointwise.option_same fun _ ha =>
        partsRelated_withLookup ih h ha)
    · exact foldName_congr (h.lookup_eq hk) fun d hd => ih.constant (h.declared hk hd)

end Agreement

end KeyTrace.Fold
