/-
When looking for a module fails.

Only the reading of a file is looked after: what cannot be read counts as missing. Before that, a
relative import string fails that has no form in the file system, and looking at a path fails that
is too long; neither counts as missing.
-/
import KeyTrace.Proofs.Files.Additions

namespace KeyTrace

namespace FileTree

/-- A part that is too long for a name is looked up in a directory that is there. -/
def Overruns (t : FileTree) (behind parts : List Text) : Prop :=
  ∃ before part, before ++ [part] <+: parts ∧ t.Walks behind (before ++ [part]) ∧
    maxNameLength < byteLength part

variable {t : FileTree} {behind parts : List Text} {part : Text}

theorem not_overruns_nil (t : FileTree) (behind : List Text) : ¬ t.Overruns behind [] := by
  rintro ⟨before, part, h, -⟩
  exact absurd (List.prefix_nil.1 h) (by simp)

theorem overruns_cons : t.Overruns behind (part :: parts) ↔
    t.entry? behind.reverse = some .directory ∧
      (maxNameLength < byteLength part ∨ t.Overruns (Path.step behind part) parts) := by
  constructor
  · rintro ⟨before, p, hp, hwalks, hlong⟩
    match before with
    | [] =>
      obtain ⟨rfl, -⟩ := List.cons_prefix_cons.1 hp
      exact ⟨(walks_cons.1 hwalks).1, .inl hlong⟩
    | q :: before =>
      obtain ⟨rfl, hrest⟩ := List.cons_prefix_cons.1 hp
      obtain ⟨hd, hwalks⟩ := walks_cons.1 hwalks
      exact ⟨hd, .inr ⟨before, p, hrest, hwalks, hlong⟩⟩
  · rintro ⟨hd, hlong | ⟨before, p, hp, hwalks, hlong⟩⟩
    · exact ⟨[], part, ⟨parts, rfl⟩, walks_cons.2 ⟨hd, walks_nil t _⟩, hlong⟩
    · exact ⟨part :: before, p, (List.prefix_cons_inj part).2 hp, walks_cons.2 ⟨hd, hwalks⟩, hlong⟩

theorem follow_error_iff : ∀ {parts behind : List Text},
    (∃ e, t.follow behind.reverse parts = .error e) ↔ t.Overruns behind parts
  | [], behind => by
    rw [follow]
    refine iff_of_false ?_ (not_overruns_nil t behind)
    rintro ⟨e, ⟨⟩⟩
  | part :: parts, behind => by
    rw [overruns_cons]
    by_cases hd : t.entry? behind.reverse = some .directory
    · rw [follow_of_directory hd, and_iff_right hd]
      split
      · next hlong => exact iff_of_true ⟨_, rfl⟩ (.inl hlong)
      · next hshort => rw [or_iff_right hshort, follow_error_iff]
    · rw [follow_of_not_directory hd]
      refine iff_of_false ?_ fun h => hd h.1
      rintro ⟨e, ⟨⟩⟩

end FileTree

namespace Workspace

/-- A path can be asked for but is too long: as a whole, or in a name that is looked up. -/
def TooLong (w : Workspace) (p : Path) : Prop :=
  FileTree.isAskable (w.directory ++ p) = true ∧
    (FileTree.maxPathLength < FileTree.byteLength (w.directory ++ p).toText ∨
      w.tree.Overruns [] (w.directory ++ p).parts)

variable {w : Workspace} {p : Path}

theorem isFile_error_iff : (∃ e, w.isFile p = .error e) ↔ w.TooLong p := by
  rw [TooLong, isFile, locate, FileTree.locate]
  by_cases hask : FileTree.isAskable (w.directory ++ p) = true
  · rw [hask, and_iff_right rfl, if_neg (by simp)]
    split
    · next hlong => exact iff_of_true ⟨_, rfl⟩ (.inl hlong)
    · next hshort =>
      rw [or_iff_right hshort, ← FileTree.follow_error_iff, List.reverse_nil]
      cases w.tree.follow [] (w.directory ++ p).parts with
      | error e => exact iff_of_true ⟨_, rfl⟩ ⟨e, rfl⟩
      | ok found =>
        refine iff_of_false ?_ ?_
        · rintro ⟨e, he⟩
          rcases found with _ | ⟨_, _ | _⟩ <;> cases he
        · rintro ⟨e, ⟨⟩⟩
  · rw [if_pos (by simpa using hask)]
    refine iff_of_false ?_ fun h => hask h.1
    rintro ⟨e, ⟨⟩⟩

/-- Taking `..` out of a path fails just if a character of it has no form in the file system. -/
theorem resolve_error_iff : (∃ e, w.resolve p = .error e) ↔
    ∃ part ∈ p.parts, ∃ c ∈ part, c = 0 ∨ FileTree.isForeign c = true := by
  rw [resolve]
  split
  · next part hpart =>
    have hany := List.find?_some hpart
    obtain ⟨c, hc, hforeign⟩ := List.any_eq_true.1 hany
    exact iff_of_true ⟨_, rfl⟩ ⟨part, List.mem_of_find?_eq_some hpart, c, hc, .inr hforeign⟩
  · next hnone =>
    split
    · next hnull =>
      obtain ⟨part, hm, hc⟩ := List.any_eq_true.1 hnull
      exact iff_of_true ⟨_, rfl⟩ ⟨part, hm, 0, List.contains_iff_mem.1 hc, .inl rfl⟩
    · next hnull =>
      refine iff_of_false ?_ ?_
      · rintro ⟨e, ⟨⟩⟩
      · rintro ⟨part, hm, c, hc, rfl | hforeign⟩
        · exact hnull (List.any_eq_true.2 ⟨part, hm, List.contains_iff_mem.2 hc⟩)
        · exact List.find?_eq_none.1 hnone part hm (List.any_eq_true.2 ⟨c, hc, hforeign⟩)

end Workspace

namespace Resolver

variable {r : Resolver} {w : Workspace} {file : Path} {wanted : Text} {l : List Path}

theorem firstFile_error_iff : ∀ {l}, (∃ e, firstFile w l = .error e) ↔
    ∃ before p after, l = before ++ p :: after ∧ (∀ b ∈ before, w.isFile b = .ok false) ∧ w.TooLong p
  | [] => by
    refine iff_of_false ?_ ?_
    · rintro ⟨e, ⟨⟩⟩
    · rintro ⟨before, p, after, h, -⟩
      simp at h
  | q :: l => by
    rw [firstFile]
    cases hq : w.isFile q with
    | error e =>
      exact iff_of_true ⟨e, rfl⟩
        ⟨[], q, l, rfl, List.forall_mem_nil _, Workspace.isFile_error_iff.1 ⟨e, hq⟩⟩
    | ok b =>
      have hne {p : Path} (hp : w.TooLong p) : q ≠ p := by
        rintro rfl
        obtain ⟨e, he⟩ := Workspace.isFile_error_iff.2 hp
        rw [hq] at he
        cases he
      cases b with
      | true =>
        refine iff_of_false ?_ ?_
        · rintro ⟨e, ⟨⟩⟩
        · rintro ⟨before, p, after, hl, hbefore, hp⟩
          obtain ⟨before', rfl, -⟩ := behind_first hl (hne hp)
          have := hbefore q List.mem_cons_self
          rw [hq] at this
          cases this
      | false =>
        change (∃ e, firstFile w l = .error e) ↔ _
        rw [firstFile_error_iff]
        constructor
        · rintro ⟨before, p, after, rfl, hbefore, hp⟩
          exact ⟨q :: before, p, after, rfl, List.forall_mem_cons.2 ⟨hq, hbefore⟩, hp⟩
        · rintro ⟨before, p, after, hl, hbefore, hp⟩
          obtain ⟨before', rfl, hrest⟩ := behind_first hl (hne hp)
          exact ⟨before', p, after, hrest, (List.forall_mem_cons.1 hbefore).2, hp⟩

/-- A relative import string has no form in the file system: a part of the path that it stands for
holds a null character or a character without encoded form. -/
def Formless (file : Path) (wanted : Text) : Prop :=
  wanted.head? = some Path.dot ∧ ∃ part ∈ (file.parent ++ Path.ofText wanted).parts, ∃ c ∈ part,
    c = 0 ∨ FileTree.isForeign c = true

theorem bases_error_iff : (∃ e, r.bases w file wanted = .error e) ↔ Formless file wanted := by
  rw [Formless, ← Workspace.resolve_error_iff (w := w)]
  by_cases hdot : wanted.head? = some Path.dot
  · have hne : wanted ≠ [] := by
      rintro rfl
      cases hdot
    rw [bases, if_neg hne, if_pos hdot, and_iff_right hdot]
    cases w.resolve (file.parent ++ Path.ofText wanted) with
    | error e => exact iff_of_true ⟨e, rfl⟩ ⟨e, rfl⟩
    | ok p =>
      refine iff_of_false ?_ ?_ <;>
        · rintro ⟨e, ⟨⟩⟩
  · refine iff_of_false ?_ fun h => hdot h.1
    rintro ⟨e, he⟩
    rw [bases, if_neg hdot] at he
    repeat' split at he
    all_goals cases he

/-- Looking for a module fails just if the import string is relative and has no form in the file
system, or if a path that is tried for it is too long and none before it is a file. -/
theorem resolve_error_iff : (∃ e, r.resolve w file wanted = .error e) ↔
    Formless file wanted ∨ ∃ bases, r.StandsFor w.directory file wanted bases ∧
      ∃ before p after, bases.flatMap candidatesAt = before ++ p :: after ∧
        (∀ b ∈ before, w.isFile b = .ok false) ∧ w.TooLong p := by
  rw [resolve, candidates, ← bases_error_iff (r := r) (w := w)]
  cases hbases : r.bases w file wanted with
  | error e => exact iff_of_true ⟨e, rfl⟩ (.inl ⟨e, rfl⟩)
  | ok bases =>
    change (∃ e, firstFile w (bases.flatMap candidatesAt) = .error e) ↔ _
    have hfound : ¬ ∃ e : Failure, Except.ok bases = .error e := by
      rintro ⟨e, ⟨⟩⟩
    rw [firstFile_error_iff, or_iff_right hfound]
    simp only [standsFor_iff hbases, exists_eq_left]

theorem text_importer_error_iff (e : Failure) :
    (r.importer w file wanted).text = .error e ↔ r.resolve w file wanted = .error e := by
  rw [importer, readModule]
  cases r.resolve w file wanted with
  | error e' =>
    constructor <;>
      · rintro ⟨⟩
        rfl
  | ok o =>
    cases o with
    | none => exact iff_of_false nofun nofun
    | some p =>
      refine iff_of_false ?_ nofun
      dsimp only
      split <;> nofun

end Resolver
end KeyTrace
