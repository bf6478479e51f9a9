/-
An importer that remembers is a snapshot, one import string at a time.

What it answers is what the files said at the first call that did not fail, since it
was started; what is written later, and what other importers are asked, is no matter.
An importer that does not remember says what the files say now.
-/
import KeyTrace.Files.Session

namespace KeyTrace

theorem Named.set_of_get? {β : Type} {name : Text} {b : β} : ∀ {m : Named β},
    get? m name = some b → set name b m = m
  | [], h => by cases h
  | (n, b') :: m, h => by
    rw [set]
    by_cases hn : n = name
    · subst hn
      rw [get?, List.lookup_cons_self] at h
      rw [if_pos rfl, Option.some.inj h]
    · have hne : (name == n) = false := by simpa using Ne.symm hn
      rw [get?, List.lookup_cons, hne] at h
      rw [if_neg hn, set_of_get? h]

namespace ImportSession

/-- The session after some steps. -/
def run (s : ImportSession) (steps : List Step) : ImportSession :=
  steps.foldl (fun s st => (s.step st).1) s

/-- The step starts an importer under an id. -/
def Step.starts (id : Text) : Step → Bool
  | .start i _ _ => i == id
  | _ => false

/-- The step asks the importer under an id for an import string. -/
def Step.asks (id wanted : Text) : Step → Bool
  | .call i w => i == id && w == wanted
  | _ => false

/-- What the files say about an import string of a file whenever the importer under an id is asked
for it, in the order of the calls. -/
def readings (s : ImportSession) (id : Text) (file : Path) (wanted : Text) :
    List Step → List (Except Failure (Option Text))
  | [] => []
  | st :: steps =>
    if st.asks id wanted then
      (s.current file wanted).text :: readings (s.step st).1 id file wanted steps
    else readings (s.step st).1 id file wanted steps

/-- The first reading that did not fail. -/
def firstReading (l : List (Except Failure (Option Text))) : Option (Option Text) :=
  l.findSome? Except.toOption

section Learning

variable (i : LiveImporter) (wanted : Text) (answer : Importer.Answer)

@[simp] theorem file_learn : (LiveImporter.learn i wanted answer).file = i.file := by
  unfold LiveImporter.learn
  split <;> rfl

@[simp] theorem remembers_learn : (LiveImporter.learn i wanted answer).remembers = i.remembers := by
  unfold LiveImporter.learn
  split <;> rfl

theorem get?_learn (w : Text) : Named.get? (LiveImporter.learn i wanted answer).answers w =
    if i.remembers = true ∧ w = wanted then answer.text.toOption.or (Named.get? i.answers w)
    else Named.get? i.answers w := by
  unfold LiveImporter.learn
  split
  · next t hr ht =>
    dsimp only
    rw [Named.get?_set, ht]
    by_cases hw : w = wanted
    · rw [if_pos hw, if_pos ⟨hr, hw⟩]
      rfl
    · rw [if_neg hw, if_neg fun h => hw h.2]
  · next h =>
    cases hr : i.remembers with
    | false => rw [if_neg (by simp)]
    | true =>
      cases ht : answer.text with
      | ok t => exact absurd ht (h t hr)
      | error e => simp [Except.toOption]

theorem learn_of_error {e : Failure} (h : answer.text = .error e) :
    LiveImporter.learn i wanted answer = i := by
  unfold LiveImporter.learn
  split
  · next ht =>
    rw [h] at ht
    cases ht
  · rfl

end Learning

/-- The importer under an id reads for a file, and remembers an answer for an import string, if it
remembers at all and has one. -/
def Keeps (s : ImportSession) (id : Text) (file : Path) (remembers : Bool) (wanted : Text)
    (kept : Option (Option Text)) : Prop :=
  ∃ i, Named.get? s.importers id = some i ∧ i.file = file ∧ i.remembers = remembers ∧
    Named.get? i.answers wanted = if remembers then kept else none

variable {s : ImportSession} {id wanted : Text} {file : Path} {remembers : Bool}
  {kept : Option (Option Text)}

theorem keeps_start (s : ImportSession) (id : Text) (file : Path) (remembers : Bool)
    (wanted : Text) : Keeps (s.step (.start id file remembers)).1 id file remembers wanted none := by
  refine ⟨⟨file, remembers, []⟩, (Named.get?_set ..).trans (if_pos rfl), rfl, rfl, ?_⟩
  cases remembers <;> rfl

theorem Keeps.answer (h : Keeps s id file remembers wanted kept) :
    (s.call id wanted).2.text =
      if remembers then kept.elim (s.current file wanted).text .ok
      else (s.current file wanted).text := by
  obtain ⟨i, hi, rfl, rfl, ha⟩ := h
  unfold call
  rw [hi]
  dsimp only
  rw [ha]
  cases i.remembers with
  | false => rfl
  | true => cases kept <;> rfl

theorem Keeps.asked (h : Keeps s id file remembers wanted kept) (w : Text) :
    Keeps (s.call id w).1 id file remembers wanted
      (kept.or (if w = wanted then (s.current file wanted).text.toOption else none)) := by
  obtain ⟨i, hi, rfl, rfl, ha⟩ := h
  unfold call
  rw [hi]
  dsimp only
  cases hw : Named.get? i.answers w with
  | some t =>
    refine ⟨i, hi, rfl, rfl, ha.trans ?_⟩
    by_cases hwanted : w = wanted
    · subst hwanted
      rw [hw] at ha
      cases hr : i.remembers with
      | false => rfl
      | true =>
        rw [hr, if_pos rfl] at ha
        rw [← ha]
        rfl
    · rw [if_neg hwanted, Option.or_none]
  | none =>
    refine ⟨_, (Named.get?_set ..).trans (if_pos rfl), file_learn .., remembers_learn .., ?_⟩
    rw [get?_learn]
    cases hr : i.remembers with
    | false => simpa [hr] using ha
    | true =>
      rw [hr, if_pos rfl] at ha
      by_cases hwanted : w = wanted
      · subst hwanted
        -- nothing is kept as long as there is no answer
        rw [hw] at ha
        simp [← ha, hw]
      · simp [hwanted, Ne.symm hwanted, ha]

theorem Keeps.other (h : Keeps s id file remembers wanted kept) {i : Text} (hi : i ≠ id) (w : Text) :
    Keeps (s.call i w).1 id file remembers wanted kept := by
  obtain ⟨o, ho, hrest⟩ := h
  unfold call
  split
  · exact ⟨o, ho, hrest⟩
  · split
    · exact ⟨o, ho, hrest⟩
    · exact ⟨o, ((Named.get?_set ..).trans (if_neg (Ne.symm hi))).trans ho, hrest⟩

/-- What an importer keeps after a step is what it has kept before, or else what the files say when
it is asked. -/
theorem Keeps.step (h : Keeps s id file remembers wanted kept) {st : Step}
    (hst : st.starts id = false) :
    Keeps (s.step st).1 id file remembers wanted
      (kept.or (if st.asks id wanted then (s.current file wanted).text.toOption else none)) := by
  have hpass (hasks : st.asks id wanted = false)
      (hs : Keeps (s.step st).1 id file remembers wanted kept) :
      Keeps (s.step st).1 id file remembers wanted
        (kept.or (if st.asks id wanted then (s.current file wanted).text.toOption else none)) := by
    rw [hasks, if_neg Bool.false_ne_true, Option.or_none]
    exact hs
  cases st with
  | write place bytes => exact hpass rfl h
  | delete place => exact hpass rfl h
  | start i f r =>
    have hi : i ≠ id := by simpa [Step.starts] using hst
    obtain ⟨o, ho, hrest⟩ := h
    exact hpass rfl ⟨o, ((Named.get?_set ..).trans (if_neg (Ne.symm hi))).trans ho, hrest⟩
  | call i w =>
    by_cases hi : i = id
    · subst hi
      simp only [Step.asks, BEq.rfl, Bool.true_and, beq_iff_eq]
      exact h.asked w
    · exact hpass (by simp [Step.asks, hi]) (h.other hi w)

/-- What an importer keeps after a run is the first of what it had and of the readings of its
calls. -/
theorem Keeps.run {steps : List Step} (h : Keeps s id file remembers wanted kept)
    (hsteps : ∀ st ∈ steps, st.starts id = false) :
    Keeps (s.run steps) id file remembers wanted
      (kept.or (firstReading (s.readings id file wanted steps))) := by
  induction steps generalizing s kept with
  | nil => simpa [ImportSession.run, readings, firstReading] using h
  | cons st steps ih =>
    have hrun := ih (h.step (hsteps st List.mem_cons_self))
      fun st hst => hsteps st (List.mem_cons_of_mem _ hst)
    have hfirst : firstReading (s.readings id file wanted (st :: steps)) =
        (if st.asks id wanted then (s.current file wanted).text.toOption else none).or
          (firstReading ((s.step st).1.readings id file wanted steps)) := by
      rw [readings]
      split
      · rw [firstReading, List.findSome?_cons]
        cases (s.current file wanted).text.toOption <;> rfl
      · rfl
    rw [hfirst, ← Option.or_assoc]
    exact hrun

theorem call_of_error {e : Failure} (h : (s.call id wanted).2.text = .error e) :
    (s.call id wanted).1 = s := by
  unfold call at h ⊢
  split
  · rfl
  · next i hi =>
    rw [hi] at h
    dsimp only at h
    split
    · rfl
    · next hw =>
      rw [hw] at h
      dsimp only
      rw [learn_of_error _ _ _ h, Named.set_of_get? hi]

/-- **An importer that remembers is a snapshot per import string.** In any session, from the start of
an importer on and through any steps that do not start another in its place, a call of it is answered
by what the files said at the first call for the same import string that did not fail, or by what
they say now if there is none; an importer that does not remember always says what they say now.
A call that fails changes nothing. -/
theorem call_snapshot (s : ImportSession) (id : Text) (file : Path) (remembers : Bool)
    (steps : List Step) (hsteps : ∀ st ∈ steps, st.starts id = false) (wanted : Text) :
    let start := (s.step (.start id file remembers)).1
    let now := start.run steps
    ((now.call id wanted).2.text =
      if remembers then
        (firstReading (start.readings id file wanted steps)).elim (now.current file wanted).text .ok
      else (now.current file wanted).text) ∧
    ∀ e, (now.call id wanted).2.text = .error e → (now.call id wanted).1 = now := by
  have hkeeps := (keeps_start s id file remembers wanted).run hsteps
  rw [Option.none_or] at hkeeps
  exact ⟨hkeeps.answer, fun e he => call_of_error he⟩

/-- An empty directory. -/
def fresh : ImportSession where
  resolver := ⟨Path.ofText (text "/p"), []⟩
  workspace := ⟨.empty, Path.ofText (text "/p")⟩
  importers := []

/-- A module is asked for before it is written, and afterwards through another importer. -/
def lateWrite : List Step :=
  [.call (text "a") (text "./m"), .write [text "p", text "m.ts"] (Utf8.encode (text "x")),
    .start (text "b") (Path.ofText (text "/p/f.ts")) false, .call (text "b") (text "./m")]

/-- An importer that has been told before `lateWrite` that there is no module is told so still. -/
theorem call_snapshot_lateWrite :
    (∀ st ∈ lateWrite, st.starts (text "a") = false) ∧
    let now := (fresh.step (.start (text "a") (Path.ofText (text "/p/f.ts")) true)).1.run lateWrite
    (now.call (text "a") (text "./m")).2.text = .ok none ∧
      (now.current (Path.ofText (text "/p/f.ts")) (text "./m")).text = .ok (some (text "x")) := by
  have hsteps : ∀ st ∈ lateWrite, st.starts (text "a") = false := by decide
  have h := (call_snapshot fresh (text "a") (Path.ofText (text "/p/f.ts")) true lateWrite hsteps
    (text "./m")).1
  exact ⟨hsteps, h.trans rfl, rfl⟩

end ImportSession
end KeyTrace
