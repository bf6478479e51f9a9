/-
Where usages and accessors point: in the text of a document, from the first
character to the last, stands what they are about.

A node spans bytes, a usage characters. The bytes of a node start and end where
characters do, and the number of characters before them is what is reported.
-/
import KeyTrace.Proofs.Analysis.Ranges

namespace KeyTrace

namespace Source

variable {s : Source} {a : Nat}

/-- The characters before the start of a character are as many as come before it. -/
theorem charOffset_offset (h : a ≤ s.length) : s.charOffset (s.offset a) = a := by
  unfold charOffset
  split
  · next hascii =>
    refine Utf8.offset_ascii (fun b hb => ?_) h
    simpa using Array.all_eq_true'.1 hascii b (by simpa using hb)
  · exact Utf8.length_decode_take h

end Source

namespace Program

variable {p : Program} {n : Node}

theorem text_source_of_ofText {code : Text} (hc : ∀ c ∈ code, c ≤ maxCodePoint)
    (h : (ofText code).outcome = .ok (some p)) : p.source.text = code := by
  obtain ⟨d, source, hs, hp⟩ := parse?_of_read h
  rw [source_of_parse? hp]
  obtain ⟨bs, hbs, rfl⟩ := Option.map_eq_some_iff.1 hs
  unfold Utf8.encode? at hbs
  split at hbs
  · cases hbs
  · next hany =>
    cases hbs
    refine Utf8.decode_encode fun c hmem => ⟨hc c hmem, ?_⟩
    simpa using List.any_eq_false.1 (Bool.eq_false_iff.2 hany) c hmem

/-- In the text of a program, from where a node starts to where it stops, stands its text. -/
structure SpansAt (code : Text) (text : Text) (start stop : Nat) : Prop where
  lt : start < stop
  le : stop ≤ code.length
  eq : code.between start stop = text

theorem Legal.spansAt (h : p.Legal n) (hk : n.kind ≠ .program) :
    SpansAt p.source.text (n.text p.source) (p.source.charOffset n.span.start)
      (p.source.charOffset n.span.stop) := by
  obtain ⟨a, b, hab, hb, hs⟩ := h.place hk
  rw [Node.text, hs, Source.slice_stretch (Nat.le_of_lt hab)]
  simp only [Source.stretch, Source.charOffset_offset hb,
    Source.charOffset_offset (Nat.le_trans (Nat.le_of_lt hab) hb)]
  exact ⟨hab, by rwa [Source.length_text], rfl⟩

theorem Holds.spansAt (h : p.Holds n) (hp : p.IsLegal) :
    SpansAt p.source.text (n.text p.source) (p.source.charOffset n.span.start)
      (p.source.charOffset n.span.stop) := by
  obtain ⟨m, hm, hn, -⟩ := h
  exact (hp n (Place.child_mem_preorder hm hn)).spansAt ((hp m hm).children n hn)

end Program

namespace Usage

open Accessor (Workplace)
open Program (SpansAt)

/-- A usage at a call points at the first argument of the call, and if that is a string literal, the
key is what the text between its quotes stands for, in its namespace. -/
structure PointsAt (w : Workplace) (code delimiter : Text) (call : Place) (u : Usage) : Prop where
  argument : ∃ first rest, call.node.callArguments?.getD [] = first :: rest ∧
    SpansAt code (first.text w.source) u.start u.stop ∧
    (first.kind = .string → u.quoted = true ∧
      ∃ v, Literal.cook (code.between (u.start + 1) (u.stop - 1)) = .ok v ∧
        u.key = qualify delimiter u.ns v)

variable {w : Workplace} {fallback : Fallback} {delimiter : Text} {call : Place} {us : List Usage}

theorem localKeys_string {i : ScopeId} {first : Node} (hk : first.kind = .string) {keys : List Text}
    (h : (localKeys w i first).outcome = .ok keys) :
    ∃ v, Literal.stringValue w.source first = .ok v ∧ keys = [v] := by
  have hs : first.shape = .string := by rw [Node.shape, hk]; rfl
  obtain ⟨v, hv, h⟩ := Traced.bind_ok_iff.1 h
  have hfold : Fold.constant (w.context i) 0 (some first) =
      Traced.ofCooked (Literal.stringValue w.source first) >>= fun v => pure (.string v) := by
    change (Fold.folder 6 (w.context i)).constant (some first) = _
    simp only [Fold.folder, Fold.Folder.next, unwrapOf, Option.bind_some,
      Node.unwrap?_of_shape (n := first) (by simp [hs]), Fold.foldShape, hs]
    rfl
  rw [hfold] at hv
  obtain ⟨t, ht, hv⟩ := Traced.bind_ok_iff.1 hv
  cases hv
  cases h
  exact ⟨t, Traced.ofCooked_ok_iff.1 ht, rfl⟩

theorem pointsAt_of_ofCall (hw : w.Legal) (hc : call ∈ w.placesOf .callExpression)
    (h : (ofCall w fallback delimiter call).outcome = .ok us) :
    ∀ u ∈ us, PointsAt w w.source.text delimiter call u := by
  obtain ⟨hc, -⟩ := Workplace.mem_of_placesOf hc
  cases hv : lookupVariable? w.source call.node with
  | none =>
    simp only [ofCall, hv] at h
    cases h
    exact fun u hu => absurd hu List.not_mem_nil
  | some name =>
    obtain ⟨ns, -, ⟨-, rfl⟩ | ⟨first, rest, keys, hargs, hkeys, rfl⟩⟩ := ofCall_ok_cases h hv
    · exact fun u hu => absurd hu List.not_mem_nil
    · intro u hu
      obtain ⟨key, hkey, rfl⟩ := List.mem_map.1 hu
      have hfirst : w.program.Holds first :=
        Accessor.holds_of_callArguments hc (by rw [hargs]; exact List.mem_cons_self)
      have hspan : SpansAt w.source.text (first.text w.source) (w.source.charOffset first.span.start)
          (w.source.charOffset first.span.stop) := hfirst.spansAt hw.program
      refine ⟨first, rest, hargs, hspan, fun hk => ?_⟩
      obtain ⟨v, hv, rfl⟩ := localKeys_string hk hkeys
      obtain rfl := List.mem_singleton.1 hkey
      refine ⟨by simp [Node.shape, hk, Kind.shape], key, ?_, rfl⟩
      rwa [Literal.stringValue, ← hspan.eq, Text.inner_between hspan.le] at hv

end Usage

namespace Accessor

variable {w : Workplace}

/-- An accessor points at its declarator. -/
def PointsAt (w : Workplace) (code : Text) (d : Place) (a : Accessor) : Prop :=
  Program.SpansAt code (d.node.text w.source) a.location.start a.location.stop

theorem pointsAt_of_ofDeclarator (hw : w.Legal) {d : Place} (hd : d ∈ w.placesOf .variableDeclarator)
    {a : Accessor} (h : (ofDeclarator w d).outcome = .ok (some a)) : PointsAt w w.source.text d a := by
  obtain ⟨hd, hk⟩ := Workplace.mem_of_placesOf hd
  unfold ofDeclarator at h
  split at h
  · cases h
  · split at h
    · cases h
    · split at h
      · cases h
      · obtain ⟨ns, -, h⟩ := Traced.bind_ok_iff.1 h
        cases h
        exact (hw.program _ hd).spansAt (by simp [hk])

end Accessor

open Accessor (Workplace)

/-- **Usages and accessors point at what they are about.** Each usage of a text lies within the text
and from its start to its stop stands the first argument of the call that it is a usage of; if that is
a string literal, the usage is quoted and its key is, in its namespace, what the text between the
quotes stands for. So does each accessor, and there stands its declarator. -/
theorem Program.discovered_pointAt {code : Text} (hc : ∀ c ∈ code, c ≤ maxCodePoint)
    (importer : Option Importer) (label : Text) :
    (∀ fallback delimiter us,
      (Usage.discover code fallback importer delimiter label).outcome = .ok us →
      ∀ u ∈ us, ∃ p w, (ofText code).outcome = .ok (some p) ∧
        (Workplace.ofProgram p importer label).outcome = .ok w ∧
        ∃ call ∈ w.placesOf .callExpression,
          (∃ found, (Usage.ofCall w fallback delimiter call).outcome = .ok found ∧ u ∈ found) ∧
          Usage.PointsAt w code delimiter call u) ∧
    ∀ accessors, (Accessor.discover code label importer).outcome = .ok accessors →
      ∀ a ∈ accessors, ∃ p w, (ofText code).outcome = .ok (some p) ∧
        (Workplace.ofProgram p importer label).outcome = .ok w ∧
        ∃ d ∈ w.placesOf .variableDeclarator,
          (Accessor.ofDeclarator w d).outcome = .ok (some a) ∧ Accessor.PointsAt w code d a := by
  -- the text of the program in a workplace is the text that has been read
  have htext {p : Program} {w : Workplace} (hp : (ofText code).outcome = .ok (some p))
      (hw : (Workplace.ofProgram p importer label).outcome = .ok w) :
      w.Legal ∧ w.source.text = code := by
    obtain ⟨hl, rfl, -⟩ := Workplace.legal (legal_of_read hp) (kind_root_of_ofText hp) hw
    exact ⟨hl, text_source_of_ofText hc hp⟩
  refine ⟨fun fallback delimiter us h u hu => ?_, fun accessors h a ha => ?_⟩
  · obtain ⟨r, hr, h⟩ := Traced.bind_ok_iff.1 h
    cases r with
    | none =>
      cases h
      cases hu
    | some p =>
      obtain ⟨w, hw, h⟩ := Traced.bind_ok_iff.1 h
      obtain ⟨found, hfound, h⟩ := Traced.bind_ok_iff.1 h
      cases h
      obtain ⟨us, hus, hu⟩ := List.mem_flatten.1 hu
      obtain ⟨call, hcall, hcu⟩ := Pointwise.exists_of_mem_right (Traced.mapM_ok_iff.1 hfound) hus
      obtain ⟨hl, rfl⟩ := htext hr hw
      exact ⟨p, w, hr, hw, call, hcall, ⟨us, hcu, hu⟩, Usage.pointsAt_of_ofCall hl hcall hcu u hu⟩
  · obtain ⟨r, hr, h⟩ := Traced.bind_ok_iff.1 h
    cases r with
    | none =>
      cases h
      cases ha
    | some p =>
      obtain ⟨w, hw, h⟩ := Traced.bind_ok_iff.1 h
      obtain ⟨found, hfound, h⟩ := Traced.bind_ok_iff.1 h
      cases h
      obtain ⟨o, ho, rfl⟩ := List.mem_filterMap.1 ha
      obtain ⟨d, hd, hda⟩ := Pointwise.exists_of_mem_right (Traced.mapM_ok_iff.1 hfound) ho
      obtain ⟨hl, rfl⟩ := htext hr hw
      exact ⟨p, w, hr, hw, d, hd, hda, Accessor.pointsAt_of_ofDeclarator hl hd hda⟩

/-- A program with characters of up to four bytes and an escape in the key. -/
def Program.wide : Text := text "/*😀é*/const t=useTranslations('a');t('\\x62→')"

/-- The key of `wide` is where it is said to be, and so is the accessor. -/
theorem Program.discovered_pointAt_wide :
    (∃ w call u, (Usage.discover wide [] none Usage.defaultDelimiter []).outcome = .ok [u] ∧
      (u.key, u.start, u.stop) = (text "a.b→", 37, 44) ∧
      Usage.PointsAt w wide Usage.defaultDelimiter call u) ∧
    ∃ w d a, (Accessor.discover wide [] none).outcome = .ok [a] ∧
      (a.location.start, a.location.stop) = (12, 34) ∧ Accessor.PointsAt w wide d a := by
  have hpoints : ∀ c ∈ wide, c ≤ maxCodePoint := by decide +kernel
  obtain ⟨husages, haccessors⟩ := discovered_pointAt hpoints none []
  constructor
  · have hus : (Usage.discover wide [] none Usage.defaultDelimiter []).outcome.toOption =
        some [⟨text "a.b→", 37, 44, true, text "t", some (text "a")⟩] := by decide +kernel
    cases h : (Usage.discover wide [] none Usage.defaultDelimiter []).outcome with
    | error e =>
      rw [h] at hus
      cases hus
    | ok us =>
      rw [h] at hus
      obtain rfl : us = _ := Option.some.inj hus
      obtain ⟨_, w, -, -, call, -, -, hu⟩ := husages [] Usage.defaultDelimiter _ h _ List.mem_cons_self
      exact ⟨w, call, _, rfl, rfl, hu⟩
  · have has : (Accessor.discover wide [] none).outcome.toOption =
        some [⟨text "t", .static (text "a"), ⟨12, 34, 1⟩⟩] := by decide +kernel
    cases h : (Accessor.discover wide [] none).outcome with
    | error e =>
      rw [h] at has
      cases has
    | ok accessors =>
      rw [h] at has
      obtain rfl : accessors = _ := Option.some.inj has
      obtain ⟨_, w, -, -, d, -, -, ha⟩ := haccessors _ h _ List.mem_cons_self
      exact ⟨w, d, _, rfl, rfl, ha⟩

end KeyTrace
