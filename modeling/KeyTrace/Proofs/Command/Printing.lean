/-
Commands that print: how a result, with its output, comes from the results on the way
(`bind_eq_ok_iff`), and that an ending that is no result has an exit code that says so
(`scan_failsLoudly`).
-/
import KeyTrace.Command.Run

namespace KeyTrace.Command

namespace Printing

variable {α β : Type} {out : Text}

theorem ok_bind (o : Text) (a : α) (f : α → Printing β) :
    (⟨o, .ok a⟩ : Printing α) >>= f = ⟨o ++ (f a).stdout, (f a).result⟩ := rfl

theorem error_bind (o : Text) (e : Nat × Option Failure) (f : α → Printing β) :
    (⟨o, .error e⟩ : Printing α) >>= f = ⟨o, .error e⟩ := rfl

/-- A result comes from results on the way, and so does the output. -/
theorem bind_eq_ok_iff {x : Printing α} {f : α → Printing β} {b : β} :
    (x >>= f) = ⟨out, .ok b⟩ ↔
      ∃ out₁ a out₂, x = ⟨out₁, .ok a⟩ ∧ f a = ⟨out₂, .ok b⟩ ∧ out = out₁ ++ out₂ := by
  obtain ⟨o, r⟩ := x
  cases r with
  | error e => simp [error_bind]
  | ok a =>
    rw [ok_bind]
    constructor
    · intro hb
      simp only [mk.injEq] at hb
      refine ⟨o, a, (f a).stdout, rfl, ?_, hb.1.symm⟩
      rw [← hb.2]
    · rintro ⟨out₁, a', out₂, hx, hf, rfl⟩
      cases hx
      rw [hf]

theorem pure_eq_ok_iff {a b : α} : (pure a : Printing α) = ⟨out, .ok b⟩ ↔ out = [] ∧ a = b := by
  have h : (pure a : Printing α) = ⟨[], .ok a⟩ := rfl
  rw [h, mk.injEq, Except.ok.injEq, eq_comm]

theorem ofExcept_eq_ok_iff {x : Except Failure α} {a : α} :
    ofExcept x = ⟨out, .ok a⟩ ↔ out = [] ∧ x = .ok a := by
  cases x with
  | ok b => simp [ofExcept, Printing.pure, eq_comm]
  | error f => simp [ofExcept, fail]

theorem write_eq_ok {t : Text} {u : Unit} (h : write t = ⟨out, .ok u⟩) : out = t := by
  unfold write at h
  split at h
  · cases h
  · cases h
    rfl

/-- An ending that is no result has an exit code that says so. -/
def FailsLoudly (x : Printing α) : Prop := ∀ e, x.result = .error e → e.1 ≠ 0

namespace FailsLoudly

theorem bind {x : Printing α} {f : α → Printing β} (hx : x.FailsLoudly)
    (hf : ∀ a, (f a).FailsLoudly) : (x >>= f).FailsLoudly := by
  obtain ⟨o, r⟩ := x
  cases r with
  | error e =>
    rw [error_bind]
    intro e' h
    cases h
    exact hx e rfl
  | ok a =>
    rw [ok_bind]
    exact hf a

theorem pure (a : α) : (pure a : Printing α).FailsLoudly := fun _ h => by cases h

theorem fail (f : Failure) : (fail f : Printing α).FailsLoudly := fun _ h => by
  cases h
  exact Nat.one_ne_zero

theorem exit {code : Nat} (h : code ≠ 0) : (exit code : Printing α).FailsLoudly := fun _ he => by
  cases he
  exact h

theorem ofExcept (x : Except Failure α) : (ofExcept x).FailsLoudly := by
  cases x with
  | ok a => exact pure a
  | error f => exact fail f

theorem write (t : Text) : (write t).FailsLoudly := by
  unfold Printing.write
  split
  · exact fail _
  · exact fun _ h => by cases h

/-- With such endings, the exit code zero stands for a result. -/
theorem of_exitCode {x : Printing Unit} (h : x.FailsLoudly) (hexit : x.ending.exitCode = 0) :
    x = ⟨x.ending.stdout, .ok ()⟩ := by
  obtain ⟨o, r⟩ := x
  cases r with
  | ok u => rfl
  | error e => exact absurd hexit (h e rfl)

end FailsLoudly

end Printing

namespace Setting

open Printing

variable {α : Type}

theorem say_failsLoudly (s : Setting) (markup : Text) : (s.say markup).FailsLoudly := .write _

theorem checkPaths_failsLoudly (s : Setting) (paths : List Path) :
    (s.checkPaths paths).FailsLoudly := by
  induction paths with
  | nil => exact .pure _
  | cons p ps ih =>
    rw [checkPaths]
    refine .bind (.ofExcept _) fun found => ?_
    split
    · exact .bind ih fun _ => .pure _
    · exact .bind (s.say_failsLoudly _) fun _ => .exit (by decide)

theorem readFiles_failsLoudly (s : Setting) (reading : Reading α) (root : Path)
    (files : List Path) : (s.readFiles reading root files).FailsLoudly := by
  induction files with
  | nil => exact .pure _
  | cons p ps ih =>
    rw [readFiles]
    split
    · exact .bind (s.say_failsLoudly _) fun _ => ih
    · exact .bind (.ofExcept _) fun _ => .bind ih fun _ => .pure _

theorem readSources_failsLoudly (s : Setting) (rule : SourceRule) (reading : Reading α)
    (root : Path) (paths : List Path) : (s.readSources rule reading root paths).FailsLoudly := by
  induction paths with
  | nil => exact .pure _
  | cons p ps ih =>
    rw [readSources]
    exact .bind (.ofExcept _) fun _ => .bind (s.readFiles_failsLoudly reading root _) fun _ =>
      .bind ih fun _ => .pure _

theorem present_failsLoudly (s : Setting) (p : Presentation α) (asJson : Bool)
    (found : List (InFile α)) : (s.present p asJson found).FailsLoudly := by
  rw [present]
  split
  · exact .write _
  · split
    · exact s.say_failsLoudly _
    · refine .bind (.write _) fun _ => ?_
      split
      · exact s.say_failsLoudly _
      · exact .pure _

theorem run_failsLoudly (s : Setting) (scan : Scan) (settings : Settings) (root : Path)
    (paths : List Path) (reading : Reading α) (p : Presentation α) :
    (s.run scan settings root paths reading p).FailsLoudly :=
  .bind (s.readSources_failsLoudly _ reading root paths) fun _ => s.present_failsLoudly p _ _

theorem scan_failsLoudly (s : Setting) (scan : Scan) : (s.scan scan).FailsLoudly := by
  refine .bind (.ofExcept _) fun settings => .bind (s.checkPaths_failsLoudly _) fun paths => ?_
  dsimp only
  split <;> exact s.run_failsLoudly scan settings _ paths _ _

end Setting
end KeyTrace.Command
