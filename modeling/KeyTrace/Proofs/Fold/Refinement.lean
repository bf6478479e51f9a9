/-
Folding with a larger budget: strings and lists of strings stay what they are, and
the records of a list may only gain properties.
-/
import KeyTrace.Proofs.Fold.Outcomes
import KeyTrace.Proofs.Fold.Returning
import Mathlib.Data.List.Forall2

namespace KeyTrace

/-- Every property of the first record is one of the second. -/
def Record.Within (r r' : Record) : Prop :=
  ∀ k v, Named.get? r k = some v → Named.get? r' k = some v

namespace Record.Within

variable {r r' : Record} {k : Text}

theorem refl (r : Record) : Within r r := fun _ _ h => h

theorem set (h : Within r r') (k : Text) (v : Text) :
    Within (Named.set k v r) (Named.set k v r') := by
  intro k' v' hv
  rw [Named.get?_set] at hv ⊢
  split at hv
  · next hk => rwa [if_pos hk]
  · next hk =>
    rw [if_neg hk]
    exact h k' v' hv

theorem set_right (h : Within r r') (hk : Named.get? r k = none) (v : Text) :
    Within r (Named.set k v r') := by
  intro k' v' hv
  rw [Named.get?_set, if_neg]
  · exact h k' v' hv
  · rintro rfl
    rw [hk] at hv
    cases hv

end Record.Within

namespace Fold

/-- The second list of records is the first with more properties; that none is lost holds under a
condition. -/
def Records.Within (D : Prop) (l l' : List Record) : Prop :=
  l.length = l'.length ∧ (D → List.Forall₂ Record.Within l l')

/-- One computation of a value refines to another: what is known stays known. -/
structure Refines (D : Prop) (x x' : Traced Folded) : Prop where
  string : ∀ s, x.outcome = .ok (.string s) → x'.outcome = .ok (.string s)
  strings : ∀ l, x.outcome = .ok (.strings l) → x'.outcome = .ok (.strings l)
  records : ∀ l v, x.outcome = .ok (.records l) → x'.outcome = .ok v →
    ∃ l', v = .records l' ∧ Records.Within D l l'

namespace Refines

variable {D D' : Prop} {x x' : Traced Folded}

theorem mono (hD : D → D') (h : Refines D' x x') : Refines D x x' where
  string := h.string
  strings := h.strings
  records := by
    intro l v hl hv
    obtain ⟨l', rfl, hlen, hw⟩ := h.records l v hl hv
    exact ⟨l', rfl, hlen, fun d => hw (hD d)⟩

/-- Nothing is known of a dynamic value. -/
theorem of_dynamic (h : ∀ v, x.outcome = .ok v → v = .dynamic) : Refines D x x' where
  string := fun _ hx => by cases h _ hx
  strings := fun _ hx => by cases h _ hx
  records := fun _ _ hx => by cases h _ hx

theorem refl (D : Prop) (x : Traced Folded) : Refines D x x where
  string := fun _ hx => hx
  strings := fun _ hx => hx
  records := by
    intro l v hl hv
    rw [hl] at hv
    cases hv
    exact ⟨l, rfl, rfl, fun _ => List.forall₂_same.2 fun r _ => .refl r⟩

theorem congr {y y' : Traced Folded} (hx : x.outcome = y.outcome) (hx' : x'.outcome = y'.outcome)
    (h : Refines D y y') : Refines D x x' where
  string := by
    rw [hx, hx']
    exact h.string
  strings := by
    rw [hx, hx']
    exact h.strings
  records := by
    rw [hx, hx']
    exact h.records

/-- A string or nothing known refines if the string does. -/
theorem of_string (hs : ∀ v, x.outcome = .ok v → v = .dynamic ∨ ∃ s, v = .string s)
    (h : ∀ s, x.outcome = .ok (.string s) → x'.outcome = .ok (.string s)) : Refines D x x' where
  string := h
  strings := fun _ hx => by simpa using hs _ hx
  records := fun _ _ hx => by simpa using hs _ hx

/-- A list of records or nothing known refines if the records do. -/
theorem of_records (hr : ∀ v, x.outcome = .ok v → v = .dynamic ∨ ∃ l, v = .records l)
    (h : ∀ l v, x.outcome = .ok (.records l) → x'.outcome = .ok v →
      ∃ l', v = .records l' ∧ Records.Within D l l') : Refines D x x' where
  string := fun _ hx => by simpa using hr _ hx
  strings := fun _ hx => by simpa using hr _ hx
  records := h

end Refines

section Arrays

variable {D : Prop}

/-- What has been read of an array, with more properties in its records. -/
inductive Gathered.Refines (D : Prop) : Gathered → Gathered → Prop
  | nothing : Refines D .nothing .nothing
  | strings (l : List Text) : Refines D (.strings l) (.strings l)
  | records {l l' : List Record} : Records.Within D l l' → Refines D (.records l) (.records l')

theorem Gathered.Refines.value {g g' : Gathered} (h : Gathered.Refines D g g') :
    Fold.Refines D (pure g.value) (pure g'.value) := by
  cases h with
  | nothing => exact .of_dynamic fun v hv => (Except.ok.inj hv).symm
  | strings l => exact ⟨fun _ hx => hx, fun _ hx => hx, fun _ _ hx => by cases hx⟩
  | records hw =>
    refine .of_records (fun v hv => .inr ⟨_, (Except.ok.inj hv).symm⟩) fun l v hl hv => ?_
    cases hl
    cases hv
    exact ⟨_, rfl, hw⟩

theorem Gathered.Refines.add_string {g g' : Gathered} (h : Gathered.Refines D g g') (s : Text) :
    g.add (.string s) = none ∨ ∃ g₁ g₁', g.add (.string s) = some g₁ ∧
      g'.add (.string s) = some g₁' ∧ Gathered.Refines D g₁ g₁' := by
  cases h with
  | nothing => exact .inr ⟨_, _, rfl, rfl, .strings [s]⟩
  | strings l => exact .inr ⟨_, _, rfl, rfl, .strings (l ++ [s])⟩
  | records => exact .inl rfl

theorem Gathered.Refines.add_record {g g' : Gathered} (h : Gathered.Refines D g g')
    {r r' : Record} (hr : D → Record.Within r r') :
    g.add (.record r) = none ∨ ∃ l l', g.add (.record r) = some (.records l) ∧
      g'.add (.record r') = some (.records l') ∧ Records.Within D l l' := by
  cases h with
  | nothing => exact .inr ⟨_, _, rfl, rfl, rfl, fun d => .cons (hr d) .nil⟩
  | strings => exact .inl rfl
  | records hw =>
    refine .inr ⟨_, _, rfl, rfl, by simp [hw.1], fun d => ?_⟩
    exact List.rel_append (hw.2 d) (.cons (hr d) .nil)

/-- An array that has a record in it is no list of strings. -/
theorem foldElements_records {element : Node → Traced Element} : ∀ {l : List Node}
    {rs : List Record} {v : Folded}, (foldElements element (.records rs) l).outcome = .ok v →
    v = .dynamic ∨ ∃ rs', v = .records rs'
  | [], rs, v, h => by
    cases h
    exact .inr ⟨rs, rfl⟩
  | c :: l, rs, v, h => by
    obtain ⟨e, -, h⟩ := Traced.bind_ok_iff.1 h
    cases e with
    | record r => exact foldElements_records h
    | string | neither =>
      cases h
      exact .inl rfl

/-- What is known of an element of an array stays known. -/
structure ElementRefines (D : Prop) (x x' : Traced Element) : Prop where
  string : ∀ s, x.outcome = .ok (.string s) → x'.outcome = .ok (.string s)
  record : ∀ r e, x.outcome = .ok (.record r) → x'.outcome = .ok e →
    ∃ r', e = .record r' ∧ (D → Record.Within r r')

theorem foldElements_refines {element element' : Node → Traced Element} : ∀ {l : List Node}
    {g g' : Gathered}, (∀ c ∈ l, ElementRefines D (element c) (element' c)) →
    Gathered.Refines D g g' → Refines D (foldElements element g l) (foldElements element' g' l)
  | [], g, g', _, hg => hg.value
  | c :: l, g, g', he, hg => by
    have hc := he c List.mem_cons_self
    have ih : ∀ {g g'}, Gathered.Refines D g g' →
        Refines D (foldElements element g l) (foldElements element' g' l) :=
      foldElements_refines fun c hc => he c (List.mem_cons_of_mem _ hc)
    simp only [foldElements]
    cases ho : (element c).outcome with
    | error e => exact .of_dynamic (by simp [Traced.bind_of_error ho])
    | ok e =>
      have hx : ∀ {β : Type} (k : Element → Traced β), (element c >>= k).outcome = (k e).outcome :=
        fun k => by rw [Traced.bind_of_ok ho]
      cases e with
      | neither =>
        refine .of_dynamic fun v hv => ?_
        rw [hx, show g.add .neither = none by cases g <;> rfl] at hv
        exact (Except.ok.inj hv).symm
      | string s =>
        have ho' := hc.string s ho
        rcases hg.add_string s with hadd | ⟨g₁, g₁', hadd, hadd', hg₁⟩
        · refine .of_dynamic fun v hv => ?_
          rw [hx, hadd] at hv
          exact (Except.ok.inj hv).symm
        · refine .congr ?_ ?_ (ih hg₁)
          · rw [hx, hadd]
          · rw [Traced.bind_of_ok ho', hadd']
      | record r =>
        refine .of_records (fun v hv => ?_) fun rs v hv hv' => ?_
        · rw [hx] at hv
          rcases hg.add_record (r := r) (fun _ => .refl r) with hadd | ⟨rs, _, hadd, _⟩
          · rw [hadd] at hv
            exact .inl (Except.ok.inj hv).symm
          · rw [hadd] at hv
            exact foldElements_records hv
        -- The other run may keep more of this record, so its element is read off what it comes to.
        · obtain ⟨e', ho', hv'⟩ := Traced.bind_ok_iff.1 hv'
          obtain ⟨r', rfl, hr⟩ := hc.record r e' ho ho'
          rw [hx] at hv
          rcases hg.add_record hr with hadd | ⟨l₁, l₁', hadd, hadd', hw⟩
          · rw [hadd] at hv
            cases hv
          · rw [hadd] at hv
            rw [hadd'] at hv'
            exact (ih (.records hw)).records rs v hv hv'

end Arrays

section Parts

variable {source : Source} {f f' : Folder}

/-- The names that the properties of an object literal have in a record. -/
def propertyNames (source : Source) (o : Node) : List Text :=
  o.children.filterMap (propertyName? source)

/-- Along properties of different names, no property of a record is lost. -/
theorem foldProperties_within : ∀ {l : List Node} {r r' out out' : Record},
    (l.filterMap (propertyName? source)).Nodup → Record.Within r r' →
    (∀ k ∈ l.filterMap (propertyName? source), Named.get? r k = none) →
    (∀ p ∈ l, ∀ k, propertyName? source p = some k → ∀ s,
      (propertyValue f p).outcome = .ok (.string s) →
        (propertyValue f' p).outcome = .ok (.string s)) →
    (l.foldlM (foldProperty source f) r).outcome = .ok out →
    (l.foldlM (foldProperty source f') r').outcome = .ok out' → Record.Within out out'
  | [], r, r', out, out', _, hw, _, _, h, h' => by
    cases h
    cases h'
    exact hw
  | p :: l, r, r', out, out', hd, hw, hnew, hs, h, h' => by
    rw [List.foldlM_cons, foldProperty_eq] at h h'
    have hs' := fun q hq => hs q (List.mem_cons_of_mem _ hq)
    cases hk : propertyName? source p with
    | none =>
      rw [hk, pure_bind] at h h'
      rw [List.filterMap_cons_none hk] at hd hnew
      exact foldProperties_within hd hw hnew hs' h h'
    | some k =>
      rw [hk] at h h'
      rw [List.filterMap_cons_some hk] at hd hnew
      obtain ⟨hkl, hd⟩ := List.nodup_cons.1 hd
      obtain ⟨r₁, h₁, h⟩ := Traced.bind_ok_iff.1 h
      obtain ⟨r₁', h₁', h'⟩ := Traced.bind_ok_iff.1 h'
      obtain ⟨v, hv, h₁⟩ := Traced.bind_ok_iff.1 h₁
      obtain ⟨v', hv', h₁'⟩ := Traced.bind_ok_iff.1 h₁'
      cases h₁
      cases h₁'
      have hrk := hnew k List.mem_cons_self
      -- What comes later has other names, so it is still new to the record.
      have hlater : ∀ v, ∀ k' ∈ l.filterMap (propertyName? source),
          Named.get? (keepString k r v) k' = none := by
        intro v k' hk'
        have hr := hnew k' (List.mem_cons_of_mem _ hk')
        cases v with
        | string s =>
          rw [keepString, Named.get?_set, if_neg (fun he : k' = k => hkl (he ▸ hk')), hr]
        | dynamic | strings | records => exact hr
      refine foldProperties_within hd ?_ (hlater v) hs' h h'
      cases v with
      | string s =>
        rw [hs p List.mem_cons_self k hk s hv] at hv'
        cases hv'
        exact hw.set k s
      | dynamic | strings | records =>
        cases v' with
        | string s => exact hw.set_right hrk s
        | dynamic | strings | records => exact hw

end Parts

/-- No object literal among what folding an expression comes to has two properties of one name. -/
def Distinct (ctx : Context) (n : Option Node) : Prop :=
  ∀ ctx' m o, Reaches ctx n ctx' m → IsRecord m o → (propertyNames ctx'.source o).Nodup

section Budget

variable {f f' : Context → Folder}

/-- What can be folded in one way refines to what can be folded in another. -/
structure Folder.Refines (f f' : Context → Folder) : Prop where
  constant : ∀ ctx n, Fold.Refines (Distinct ctx n) ((f ctx).constant n) ((f' ctx).constant n)
  name : ∀ ctx n k, Mentions n k →
    Fold.Refines (Distinct ctx n) ((f ctx).name k) ((f' ctx).name k)
  object : ∀ ctx n o, unwrapOf n = some o → o.shape = .object →
    ((f ctx).constant n).outcome = .ok .dynamic ∧ ((f' ctx).constant n).outcome = .ok .dynamic

variable {ctx : Context} {n : Option Node} {a : Node}

theorem foldName_refines {c c' : Context → Option Node → Traced Folded} {k : Node}
    (hk : Mentions n k) (h : ∀ ctx m, Refines (Distinct ctx m) (c ctx m) (c' ctx m)) :
    Refines (Distinct ctx n) (foldName c ctx k) (foldName c' ctx k) := by
  rcases foldName_cases ctx k with ⟨ctx₁, m, hm, he⟩ | ⟨o, ho, he⟩
  · refine .congr (he c) (he c') (.mono (fun hd => ?_) (h ctx₁ m))
    exact fun _ _ _ hr => hd _ _ _ (.follow hk hm hr)
  · exact .of_dynamic fun v hv => ho.dynamic v ((he c).symm.trans hv)

theorem foldElement_refines (hf : Folder.Refines f f') (ha : unwrapOf n = some a)
    (hs : a.shape = .array) {c : Node} (hc : c ∈ a.children) :
    ElementRefines (Distinct ctx n) (foldElement ctx.source (f ctx) c)
      (foldElement ctx.source (f' ctx) c) := by
  refine ⟨fun s h => ?_, fun r e h h' => ?_⟩
  · exact foldElement_string_iff.2 ((hf.constant ctx (some c)).string s (foldElement_string_iff.1 h))
  · obtain ⟨o, hu, ho⟩ := isObject_of_foldElement h
    have hrec : IsRecord n o := ⟨a, ha, hs, c, hc, hu, ho⟩
    have hkept : ∀ p ∈ o.children, ∀ k, propertyName? ctx.source p = some k → ∀ s,
        (propertyValue (f ctx) p).outcome = .ok (.string s) →
          (propertyValue (f' ctx) p).outcome = .ok (.string s) := by
      intro p hp k hk s hps
      rcases property_cases hrec hp hk with ⟨hm, hval⟩ | ⟨hm, hval⟩
      · rw [hval] at hps ⊢
        exact (hf.name ctx n p hm).string s hps
      · rw [hval] at hps ⊢
        exact (hf.constant ctx _).string s hps
    obtain ⟨hd, hd'⟩ := hf.object ctx (some c) o hu ho
    rw [foldElement_object hd hu ho] at h
    rw [foldElement_object hd' hu ho] at h'
    obtain ⟨r₁, hr, h⟩ := Traced.bind_ok_iff.1 h
    obtain ⟨r', hr', h'⟩ := Traced.bind_ok_iff.1 h'
    cases h
    cases h'
    exact ⟨r', rfl, fun hd => foldProperties_within (hd _ _ _ .refl hrec) (.refl [])
      (fun _ _ => rfl) hkept hr hr'⟩

theorem foldTemplate_refines (hf : Folder.Refines f f') {t : Text}
    (h : (foldTemplate ctx.source (f ctx).constant a).outcome = .ok (some t)) :
    (foldTemplate ctx.source (f' ctx).constant a).outcome = .ok (some t) := by
  obtain ⟨parts, values, hp, hvalues, rfl⟩ := foldTemplate_eq_some_iff.1 h
  exact foldTemplate_eq_some_iff.2
    ⟨parts, values, hp, hvalues.imp fun e v => (hf.constant ctx e).string v, rfl⟩

/-- Beside arrays and names, all that is known are strings, and they are kept. -/
theorem foldShape_refines (hf : Folder.Refines f f') (ha : unwrapOf n = some a) :
    Refines (Distinct ctx n) (foldShape ctx f a) (foldShape ctx f' a) := by
  by_cases harray : a.shape = .array
  · simp only [foldShape, harray]
    exact foldElements_refines (fun c hc => foldElement_refines hf ha harray hc) .nothing
  by_cases hname : a.shape = .identifier
  · simp only [foldShape, hname]
    exact foldName_refines (.identifier ha hname) hf.constant
  refine .of_string (fun v h => ?_) fun s h => foldShape_ok_iff.2 ?_
  · cases foldShape_ok_iff.1 h with
    | array hs => exact absurd hs harray
    | identifier hs => exact absurd hs hname
    | @template o =>
      cases o with
      | none => exact .inl rfl
      | some s => exact .inr ⟨s, rfl⟩
    | string | plus => exact .inr ⟨_, rfl⟩
    | left | right | other => exact .inl rfl
  · generalize hv : Folded.string s = v at h
    cases foldShape_ok_iff.1 h with
    | array hs => exact absurd hs harray
    | identifier hs => exact absurd hs hname
    | string hs ht => exact .string hs ht
    | @template o hs ho =>
      cases o with
      | none => cases hv
      | some t => exact .template (o := some t) hs (foldTemplate_refines hf ho)
    | plus hk hl hr =>
      exact .plus hk ((hf.constant ctx _).string _ hl) ((hf.constant ctx _).string _ hr)
    | left | right | other => cases hv

theorem folder_object (b : Nat) (ctx : Context) {n : Option Node} {o : Node}
    (hu : unwrapOf n = some o) (ho : o.shape = .object) :
    ((folder b ctx).constant n).outcome = .ok .dynamic := by
  cases b with
  | zero => rfl
  | succ b => simp [folder, Folder.next, hu, foldShape, ho]

/-- A larger budget refines what can be folded. -/
theorem folder_refines : ∀ {b b' : Nat}, b ≤ b' → Folder.Refines (folder b) (folder b')
  | 0, b', _ => by
    refine ⟨fun _ _ => .of_dynamic fun v hv => (Except.ok.inj hv).symm, fun ctx n k hk => ?_,
      fun ctx n o hu ho => ⟨rfl, folder_object b' ctx hu ho⟩⟩
    have hlast : ∀ (c' : Context → Option Node → Traced Folded) ctx m,
        Refines (Distinct ctx m) (pure .dynamic) (c' ctx m) :=
      fun _ _ _ => .of_dynamic fun v hv => (Except.ok.inj hv).symm
    cases b' with
    | zero => exact foldName_refines hk (hlast _)
    | succ b' => exact foldName_refines hk (hlast _)
  | b + 1, b' + 1, h => by
    have ih := folder_refines (Nat.le_of_succ_le_succ h)
    refine ⟨fun ctx n => ?_, fun ctx n k hk => foldName_refines hk ih.constant,
      fun ctx n o hu ho => ⟨folder_object (b + 1) ctx hu ho, folder_object (b' + 1) ctx hu ho⟩⟩
    simp only [folder, Folder.next]
    cases ha : unwrapOf n with
    | none => exact .refl _ _
    | some a => exact foldShape_refines ih ha

end Budget

/-- **A larger budget refines a fold.** Folding at a smaller depth gives the same string or the same
strings, and as many records, of which none loses a property if no object literal repeats a name. It
has a result whenever the importer answers and the literals it comes to have values. -/
theorem constant_refines {d d' : Int} (hd : d' ≤ d) (ctx : Context) (n : Option Node) :
    (∀ s, (constant ctx d n).outcome = .ok (.string s) →
      (constant ctx d' n).outcome = .ok (.string s)) ∧
    (∀ l, (constant ctx d n).outcome = .ok (.strings l) →
      (constant ctx d' n).outcome = .ok (.strings l)) ∧
    (∀ l v, (constant ctx d n).outcome = .ok (.records l) → (constant ctx d' n).outcome = .ok v →
      ∃ l', v = .records l' ∧ l.length = l'.length ∧
        (Distinct ctx n → List.Forall₂ Record.Within l l')) ∧
    (Answers ctx.importer → Cooks ctx n → ∃ v, (constant ctx d' n).outcome = .ok v) := by
  have hb : budget d ≤ budget d' := by
    simp only [budget]
    omega
  have h := (folder_refines hb).constant ctx n
  exact ⟨h.string, h.strings, h.records, (folder_returns (budget d')).constant ctx n⟩

section Example

/-- The text of `[{a:'x'}]`. -/
def oneRecord : Source := ⟨(Utf8.encode (text "[\x7ba:'x'\x7d]")).toArray⟩

/-- The string in `oneRecord`. -/
def oneString : Node := .mk .value .string ⟨4, 7⟩ []

/-- The object literal in `oneRecord`. -/
def oneObject : Node :=
  .mk .none .object ⟨1, 8⟩
    [.mk .none .pair ⟨2, 7⟩ [.mk .key .propertyIdentifier ⟨2, 3⟩ [], oneString]]

/-- The array literal of `oneRecord`. -/
def oneArray : Node := .mk .none .array ⟨0, 9⟩ [oneObject]

theorem isRecord_oneArray {o : Node} (h : IsRecord (some oneArray) o) : o = oneObject := by
  obtain ⟨a, ha, -, c, hc, hu, -⟩ := h
  cases ha
  obtain rfl := List.mem_singleton.1 hc
  exact (Option.some.inj hu).symm

theorem reaches_oneArray {ctx ctx' : Context} {m : Option Node}
    (h : Reaches ctx (some oneArray) ctx' m) :
    ctx' = ctx ∧ (m = some oneArray ∨ m = some oneObject ∨ m = some oneString) := by
  cases h with
  | refl => exact ⟨rfl, .inl rfl⟩
  | part hp hr =>
    cases hp with
    | element ha _ hc =>
      cases ha
      obtain rfl := List.mem_singleton.1 hc
      obtain ⟨hctx, hm⟩ := hr.eq_of_plain rfl (.inr rfl)
      exact ⟨hctx, .inr (.inl hm)⟩
    | property ho hp =>
      obtain rfl := isRecord_oneArray ho
      obtain rfl := List.mem_singleton.1 hp
      obtain ⟨hctx, hm⟩ := hr.eq_of_plain rfl (.inl rfl)
      exact ⟨hctx, .inr (.inr hm)⟩
    | substitution ha hs => cases ha; cases hs
    | left ha hk | right ha hk => cases ha; cases hk
  | follow hn _ _ =>
    cases hn with
    | identifier ha hs => cases ha; cases hs
    | shorthand ho hp hk =>
      obtain rfl := isRecord_oneArray ho
      obtain rfl := List.mem_singleton.1 hp
      cases hk

/-- At the largest depth the record of `oneRecord` has lost its property, at depth zero it has it. -/
theorem constant_refines_oneArray :
    (constant (.alone oneRecord) 5 (some oneArray)).outcome = .ok (.records [[]]) ∧
      (constant (.alone oneRecord) 0 (some oneArray)).outcome =
        .ok (.records [[(text "a", text "x")]]) ∧
      List.Forall₂ Record.Within [[]] [[(text "a", text "x")]] := by
  have hlarge : (constant (.alone oneRecord) 5 (some oneArray)).outcome = .ok (.records [[]]) := rfl
  have hdistinct : Distinct (.alone oneRecord) (some oneArray) := by
    intro ctx' m o hr ho
    obtain ⟨rfl, rfl | rfl | rfl⟩ := reaches_oneArray hr
    · rw [isRecord_oneArray ho]
      decide
    all_goals
      obtain ⟨a, ha, hs, -⟩ := ho
      cases ha
      cases hs
  have hcooks : Cooks (.alone oneRecord) (some oneArray) := by
    intro ctx' m a hr ha
    obtain ⟨rfl, rfl | rfl | rfl⟩ := reaches_oneArray hr
    all_goals
      cases ha
      exact ⟨fun hs => ⟨_, rfl⟩, fun hs => by cases hs⟩
  obtain ⟨-, -, hrecords, hreturns⟩ :=
    constant_refines (by decide : (0 : Int) ≤ 5) (.alone oneRecord) (some oneArray)
  obtain ⟨v, hv⟩ := hreturns (fun _ h => by cases h) hcooks
  have hsmall : (constant (.alone oneRecord) 0 (some oneArray)).outcome =
      .ok (.records [[(text "a", text "x")]]) := rfl
  obtain ⟨l', hl', -, hwithin⟩ := hrecords _ v hlarge hv
  rw [hsmall] at hv
  cases hv
  cases hl'
  exact ⟨hlarge, hsmall, hwithin hdistinct⟩

end Example

end Fold
end KeyTrace
