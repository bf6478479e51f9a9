/-
Folding fails at most as the importer does, if the literals that folding comes to
have values; where the importer answers it has a result. A name comes to the
expression that it stands for, or to nothing known.
-/
import KeyTrace.Proofs.Analysis.Outcomes
import KeyTrace.Proofs.Fold.Reach
import KeyTrace.Proofs.Grammar.Reading

namespace KeyTrace.Fold

open Traced (Blames)

section Names

/-- The importer, if there is one, answers every request. -/
def Answers (importer : Option Importer) : Prop :=
  ∀ i ∈ importer, ∀ module, ∃ t, (i module).text = .ok t

/-- The variable that an import names, if its module has it. -/
def Imported (importer : Importer) (i : Import) (exportName : Text) (p : Program) (d : Node) :
    Prop :=
  ∃ code, (importer i.module).text = .ok (some code) ∧
    (Program.ofText code).outcome = .ok (some p) ∧ p.exported? exportName = some d

/-- Nothing is known, and to know as much fails at most as the importer does. -/
structure Unknown (importer : Option Importer) (o : Except Failure Folded) : Prop where
  dynamic : ∀ v, o = .ok v → v = .dynamic
  blames : ∀ f, o = .error f → ∃ i ∈ importer, ∃ module, (i module).text = .error f

theorem Unknown.ok (importer : Option Importer) : Unknown importer (.ok .dynamic) :=
  ⟨fun _ hv => (Except.ok.inj hv).symm, nofun⟩

/-- Folding an imported variable comes to folding its value, or to nothing known. -/
theorem foldImport_cases (importer : Importer) {i : Import} {exportName : Text}
    (hexp : i.name = some exportName) (hnamed : i.isNamed = true) :
    (∃ p d, Imported importer i exportName p d ∧ ∀ constantIn,
      (foldImport constantIn (some importer) i).outcome =
        (constantIn (.alone p.source) (d.child? .value)).outcome) ∨
    ∃ o, Unknown (some importer) o ∧ ∀ constantIn,
      (foldImport constantIn (some importer) i).outcome = o := by
  simp only [foldImport, hexp, hnamed, Bool.not_true, Bool.false_eq_true, if_false]
  cases htext : (importer i.module).text with
  | error e =>
    exact .inr ⟨.error e, ⟨nofun, fun f hf => ⟨importer, rfl, i.module, htext.trans (congrArg _ (Except.error.inj hf))⟩⟩,
      fun _ => by rw [Traced.bind_of_error htext]⟩
  | ok t =>
    have hrequest : ∀ {β : Type} (k : Option Text → Traced β),
        (importer.request i.module >>= k).outcome = (k t).outcome :=
      fun k => by rw [Traced.bind_of_ok htext]
    simp only [hrequest]
    rcases t with _ | _ | ⟨c, cs⟩
    · exact .inr ⟨_, .ok _, fun _ => rfl⟩
    · exact .inr ⟨_, .ok _, fun _ => rfl⟩
    · dsimp only
      obtain ⟨r, hr⟩ := Program.ofText_returns (c :: cs)
      have hread : ∀ {β : Type} (k : Option Program → Traced β),
          (Program.ofText (c :: cs) >>= k).outcome = (k r).outcome :=
        fun k => by rw [Traced.bind_of_ok hr]
      simp only [hread]
      cases r with
      | none => exact .inr ⟨_, .ok _, fun _ => rfl⟩
      | some p =>
        dsimp only
        cases hd : p.exported? exportName with
        | none => exact .inr ⟨_, .ok _, fun _ => rfl⟩
        | some d => exact .inl ⟨p, d, ⟨c :: cs, htext, hr, hd⟩, fun _ => rfl⟩

/-- Folding a name comes to folding the expression that it stands for, or to nothing known. -/
theorem foldName_cases (ctx : Context) (name : Node) :
    (∃ ctx₁ m, Follows ctx name ctx₁ m ∧
      ∀ constantIn, (foldName constantIn ctx name).outcome = (constantIn ctx₁ m).outcome) ∨
    ∃ o, Unknown ctx.importer o ∧ ∀ constantIn, (foldName constantIn ctx name).outcome = o := by
  cases hb : ctx.lookup (name.text ctx.source) with
  | none => exact .inr ⟨_, .ok _, fun _ => by rw [foldName, hb]; rfl⟩
  | some b =>
    cases b with
    | parameter | other => exact .inr ⟨_, .ok _, fun _ => by rw [foldName, hb]; rfl⟩
    | declared d => exact .inl ⟨ctx, _, .declared hb, fun _ => by rw [foldName, hb]⟩
    | imported i =>
      have hname : ∀ constantIn, foldName constantIn ctx name =
          foldImport constantIn ctx.importer i := fun _ => by rw [foldName, hb]
      simp only [hname]
      cases himp : ctx.importer with
      | none => exact .inr ⟨_, .ok _, fun _ => rfl⟩
      | some importer =>
        cases hexp : i.name with
        | none => exact .inr ⟨_, .ok _, fun _ => by simp [foldImport, hexp]⟩
        | some exportName =>
          cases hnamed : i.isNamed with
          | false => exact .inr ⟨_, .ok _, fun _ => by simp [foldImport, hexp, hnamed]⟩
          | true =>
            rcases foldImport_cases importer hexp hnamed with ⟨p, d, ⟨code, ht, hp, hd⟩, h⟩ | h
            · exact .inl ⟨_, _, .imported hb himp hnamed hexp ht hp hd, h⟩
            · exact .inr h

end Names

section Returning

/-- The literals among what folding an expression comes to have values. A text with an escape that
would have none is not read as a program (`Program.escapesValid`). -/
def Cooks (ctx : Context) (n : Option Node) : Prop :=
  ∀ ctx' m a, Reaches ctx n ctx' m → unwrapOf m = some a →
    (a.shape = .string → ∃ v, Literal.stringValue ctx'.source a = .ok v) ∧
      (a.shape = .template → ∃ t, Literal.Template.ofNode ctx'.source a = .ok t)

variable {ctx : Context} {n m : Option Node} {a : Node}

theorem Cooks.part (h : Cooks ctx n) (hm : Part ctx.source n m) : Cooks ctx m :=
  fun _ _ _ hr => h _ _ _ (.part hm hr)

theorem Cooks.follow (h : Cooks ctx n) {name : Node} (hn : Mentions n name) {ctx₁ : Context}
    (hm : Follows ctx name ctx₁ m) : Cooks ctx₁ m :=
  fun _ _ _ hr => h _ _ _ (.follow hn hm hr)

theorem Follows.blames {name : Node} {ctx₁ : Context} (h : Follows ctx name ctx₁ m) {α : Type}
    {x : Traced α} (hx : x.Blames ctx₁.importer) : x.Blames ctx.importer := by
  cases h with
  | declared => exact hx
  | imported => exact hx.of_none

/-- Folding fails at most as the importer does, where literals have values. -/
structure Folder.Blames (f : Context → Folder) : Prop where
  constant : ∀ ctx n, Cooks ctx n → ((f ctx).constant n).Blames ctx.importer
  name : ∀ ctx n k, Cooks ctx n → Mentions n k → ((f ctx).name k).Blames ctx.importer

variable {f : Context → Folder}

theorem foldRecord_blames (hf : Folder.Blames f) (hc : Cooks ctx n) {o : Node} (ho : IsRecord n o) :
    (foldRecord ctx.source (f ctx) o).Blames ctx.importer := by
  refine (foldRecord_related (Blames.congruence _)
    (List.forall₂_same.2 fun p hp => ⟨rfl, fun hn => ⟨rfl, ?_⟩⟩)).2
  obtain ⟨k, hk⟩ := Option.ne_none_iff_exists'.1 hn
  rcases property_cases ho hp hk with ⟨hm, hv⟩ | ⟨hm, hv⟩
  · rw [hv]
    exact hf.name ctx n p hc hm
  · rw [hv]
    exact hf.constant ctx _ (hc.part hm)

theorem foldElement_blames (hf : Folder.Blames f) (hc : Cooks ctx n) (ha : unwrapOf n = some a)
    (hs : a.shape = .array) {c : Node} (hca : c ∈ a.children) :
    (foldElement ctx.source (f ctx) c).Blames ctx.importer :=
  (foldElement_related (Blames.congruence _)
    ⟨rfl, hf.constant ctx _ (hc.part (.element ha hs hca))⟩
    (Pointwise.option_same fun _ hu =>
      ⟨rfl, fun ho => ⟨rfl, foldRecord_blames hf hc ⟨a, ha, hs, c, hca, hu, ho⟩⟩⟩)).2

theorem foldTemplate_blames (hf : Folder.Blames f) (hc : Cooks ctx n) (ha : unwrapOf n = some a)
    (hs : a.shape = .template) :
    (foldTemplate ctx.source (f ctx).constant a).Blames ctx.importer := by
  obtain ⟨t, ht⟩ := (hc ctx n a .refl ha).2 hs
  refine .bind (.of_cooked ⟨t, ht⟩) fun t' ht' => ?_
  rw [Traced.ofCooked_ok_iff] at ht'
  exact (joinTemplate_related (Blames.congruence _) _ (List.forall₂_same.2 fun p hp =>
    ⟨⟨rfl, hf.constant ctx _ (hc.part (.substitution ha hs ht' (List.mem_map_of_mem hp)))⟩, rfl⟩)).2

theorem foldName_blames {c : Context → Option Node → Traced Folded} {k : Node}
    (hc : Cooks ctx n) (hk : Mentions n k)
    (h : ∀ ctx m, Cooks ctx m → (c ctx m).Blames ctx.importer) :
    (foldName c ctx k).Blames ctx.importer := by
  rcases foldName_cases ctx k with ⟨ctx₁, m, hm, he⟩ | ⟨o, ho, he⟩
  · exact fun f hf => hm.blames (h ctx₁ m (hc.follow hk hm)) f ((he c).symm.trans hf)
  · exact fun f hf => ho.blames f ((he c).symm.trans hf)

theorem partsRelated_blames (hf : Folder.Blames f) (hc : Cooks ctx n) (ha : unwrapOf n = some a) :
    PartsRelated (fun x y => x = y ∧ x.Blames ctx.importer) ctx ctx f a a where
  shape := rfl
  string hs := ⟨rfl, .of_cooked ((hc ctx n a .refl ha).1 hs)⟩
  array hs := List.forall₂_same.2 fun _ hca => ⟨rfl, foldElement_blames hf hc ha hs hca⟩
  identifier hs := ⟨rfl, foldName_blames hc (.identifier ha hs) hf.constant⟩
  template hs := ⟨rfl, foldTemplate_blames hf hc ha hs⟩
  binary _ := rfl
  left hk := ⟨rfl, hf.constant ctx _ (hc.part (.left ha hk))⟩
  right hk := ⟨rfl, hf.constant ctx _ (hc.part (.right ha hk))⟩

theorem folder_blames : ∀ b : Nat, Folder.Blames (folder b)
  | 0 => ⟨fun _ _ _ => .pure _, fun _ _ _ hc hk => foldName_blames hc hk fun _ _ _ => .pure _⟩
  | b + 1 => by
    have ih := folder_blames b
    refine ⟨fun ctx n hc => ?_, fun ctx n k hc hk => foldName_blames hc hk ih.constant⟩
    exact (next_related (Blames.congruence _) (Pointwise.option_same fun _ ha =>
      partsRelated_blames ih hc ha)).2

/-- What is to be blamed on an importer that always answers has a result. -/
theorem returns_of_blames {importer : Option Importer} {α : Type} {x : Traced α}
    (hx : x.Blames importer) (ha : Answers importer) : ∃ a, x.outcome = .ok a := by
  cases h : x.outcome with
  | ok a => exact ⟨a, rfl⟩
  | error f =>
    obtain ⟨i, hi, module, hf⟩ := hx f h
    obtain ⟨t, ht⟩ := ha i hi module
    cases hf.symm.trans ht

/-- Folding has a result where the importer answers and literals have values. -/
structure Folder.Returns (f : Context → Folder) : Prop where
  constant : ∀ ctx n, Answers ctx.importer → Cooks ctx n → ∃ v, ((f ctx).constant n).outcome = .ok v

theorem folder_returns (b : Nat) : Folder.Returns (folder b) :=
  ⟨fun ctx n ha hc => returns_of_blames ((folder_blames b).constant ctx n hc) ha⟩

end Returning

end KeyTrace.Fold
