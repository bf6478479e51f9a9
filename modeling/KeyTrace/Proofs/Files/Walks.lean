/-
What a walk of a directory finds.

The extensions are taken one after another, and what is found is put in order. No extension of the
settings ends in another, so no name ends in two of them and nothing is found twice. But whether an
entry is a file is not asked: a directory that is named like a source is found as well.
-/
import KeyTrace.Settings
import KeyTrace.Proofs.Text.Pieces
import Mathlib.Data.List.Infix

namespace KeyTrace

namespace Text

variable {s t u : Text} {l : List Text}

theorem endsWith_iff : endsWith t s = true ↔ s <:+ t := by
  rw [endsWith, startsWith_iff, List.reverse_prefix]

theorem le_total : ∀ s t : Text, (le s t || le t s) = true
  | [], _ => rfl
  | _ :: _, [] => rfl
  | a :: s, b :: t => by
    have := le_total s t
    grind [le]

theorem le_antisymm : ∀ {s t : Text}, le s t = true → le t s = true → s = t
  | [], [], _, _ => rfl
  | a :: s, b :: t, h, h' => by
    have := @le_antisymm s t
    grind [le]

theorem le_trans : ∀ {s t u : Text}, le s t = true → le t u = true → le s u = true
  | [], _, _, _, _ => rfl
  | a :: s, b :: t, c :: u, h, h' => by
    have := @le_trans s t u
    grind [le]

/-- The order of texts is the lexicographic one. -/
theorem lex_of_le : ∀ {s t : Text}, le s t = true → s ≠ t → List.Lex (· < ·) s t
  | [], [], _, hne => absurd rfl hne
  | [], _ :: _, _, _ => .nil
  | a :: s, b :: t, h, hne => by
    rw [le, Bool.or_eq_true, Bool.and_eq_true, decide_eq_true_eq, beq_iff_eq] at h
    rcases h with h | ⟨rfl, h⟩
    · exact .rel h
    · exact .cons (lex_of_le h fun heq => hne (congrArg _ heq))

theorem mem_insertOnce : u ∈ insertOnce t l ↔ u = t ∨ u ∈ l := by
  induction l with
  | nil => rw [insertOnce, List.mem_singleton, or_iff_left List.not_mem_nil]
  | cons v l ih =>
    rw [insertOnce]
    split
    · next h => grind
    · split
      · rw [List.mem_cons]
      · rw [List.mem_cons, ih, List.mem_cons, or_left_comm]

theorem mem_inOrder : u ∈ inOrder l ↔ u ∈ l := by
  induction l with
  | nil => rfl
  | cons t l ih => rw [inOrder, List.foldr_cons, mem_insertOnce, ← inOrder, ih, List.mem_cons]

theorem insertOnce_ordered (h : l.Pairwise fun a b => le a b = true ∧ a ≠ b) :
    (insertOnce t l).Pairwise fun a b => le a b = true ∧ a ≠ b := by
  induction l with
  | nil => exact List.pairwise_singleton _ t
  | cons v l ih =>
    obtain ⟨hv, hl⟩ := List.pairwise_cons.1 h
    rw [insertOnce]
    split
    · exact h
    · next hne =>
      split
      · next hle =>
        refine List.pairwise_cons.2 ⟨fun w hw => ?_, h⟩
        rcases List.mem_cons.1 hw with rfl | hw
        · exact ⟨hle, hne⟩
        · refine ⟨le_trans hle (hv w hw).1, ?_⟩
          rintro rfl
          exact hne (le_antisymm hle (hv t hw).1)
      · next hle =>
        have hvt : le v t = true := by
          have := le_total t v
          grind
        refine List.pairwise_cons.2 ⟨fun w hw => ?_, ih hl⟩
        rcases mem_insertOnce.1 hw with rfl | hw
        · exact ⟨hvt, Ne.symm hne⟩
        · exact hv w hw

theorem inOrder_nodup (l : List Text) : (inOrder l).Nodup := by
  have hordered : (inOrder l).Pairwise fun a b => le a b = true ∧ a ≠ b := by
    induction l with
    | nil => exact .nil
    | cons t l ih => exact insertOnce_ordered ih
  exact hordered.imp And.right

end Text

namespace Path

theorem partsLE_total : ∀ p q : List Text, (partsLE p q || partsLE q p) = true
  | [], _ => rfl
  | _ :: _, [] => rfl
  | a :: p, b :: q => by
    have := partsLE_total p q
    have := Text.le_total a b
    grind [partsLE]

theorem partsLE_trans : ∀ {p q r : List Text}, partsLE p q = true → partsLE q r = true →
    partsLE p r = true
  | [], _, _, _, _ => rfl
  | a :: p, b :: q, c :: r, h, h' => by
    have := @partsLE_trans p q r
    have := @Text.le_trans a b c
    have := @Text.le_antisymm a b
    grind [partsLE]

/-- The order of parts is the lexicographic one. -/
theorem lex_of_partsLE : ∀ {p q : List Text}, partsLE p q = true → p ≠ q →
    List.Lex (List.Lex (· < ·)) p q
  | [], [], _, hne => absurd rfl hne
  | [], _ :: _, _, _ => .nil
  | a :: p, b :: q, h, hne => by
    rw [partsLE] at h
    split at h
    · next hab =>
      subst hab
      exact .cons (lex_of_partsLE h fun heq => hne (congrArg _ heq))
    · next hab => exact .rel (Text.lex_of_le h hab)

end Path

namespace FileTree

/-- No place of a tree has two entries. -/
def Distinct (t : FileTree) : Prop := (t.entries.map Prod.fst).Nodup

variable {t : FileTree} {place : FilePlace}

/-- Something stands at a place below the root just if there is an entry for it. -/
theorem exists_entry?_iff (hne : place ≠ []) :
    (∃ e, t.entry? place = some e) ↔ place ∈ t.entries.map Prod.fst := by
  rw [entry?_of_ne hne, ← Option.isSome_iff_exists, List.lookup_isSome_iff, List.mem_map]
  exact exists_congr fun e => and_congr_right fun _ => beq_iff_eq.trans eq_comm

theorem distinct_empty : empty.Distinct := List.nodup_nil

theorem Distinct.erase (h : t.Distinct) (place : FilePlace) : (t.erase place).Distinct :=
  List.Nodup.sublist (List.filter_sublist.map Prod.fst) h

theorem Distinct.put (h : t.Distinct) (place : FilePlace) (e : FileEntry) : (t.put place e).Distinct := by
  refine List.nodup_cons.2 ⟨fun hm => ?_, h.erase place⟩
  obtain ⟨e, he, rfl⟩ := List.mem_map.1 hm
  simpa using (List.mem_filter.1 he).2

theorem Distinct.makeWay : ∀ (ahead : FilePlace) {behind : FilePlace} {t : FileTree}, t.Distinct →
    (makeWay behind t ahead).Distinct
  | [], _, _, h | [_], _, _, h => h
  | n :: m :: ahead, behind, t, h => by
    unfold FileTree.makeWay
    refine makeWay (m :: ahead) ?_
    split
    · exact h
    · exact h.put _ _

theorem Distinct.writeFile (h : t.Distinct) (place : FilePlace) (bytes : List UInt8) :
    (t.writeFile place bytes).Distinct := (h.makeWay place).put place _

end FileTree

namespace SourceRule

variable {r : SourceRule} {t : FileTree} {directory place : FilePlace} {parts : List Text}
  {extension : Text}

/-- Parts that lead to a source, as far as their names tell: the last of them ends in an extension,
and none is passed over. -/
def Wants (r : SourceRule) (parts : List Text) : Prop :=
  (∃ before stem extension, parts = before ++ [stem ++ extension] ∧ extension ∈ r.extensions) ∧
    ∀ part ∈ parts, part ∉ r.excluded

/-- No extension ends in another. -/
def Separate (r : SourceRule) : Prop :=
  ∀ e ∈ r.extensions, ∀ e' ∈ r.extensions, e <:+ e' → e = e'

/-- A name ends in one extension at most. -/
theorem Separate.eq (h : r.Separate) {name e e' : Text} (he : e ∈ r.extensions)
    (he' : e' ∈ r.extensions) (hs : e <:+ name) (hs' : e' <:+ name) : e = e' := by
  rcases List.suffix_or_suffix_of_suffix hs hs' with hs | hs
  · exact h e he e' he' hs
  · exact (h e' he' e he hs).symm

theorem below?_eq_some_iff : below? directory place = some parts ↔
    parts ≠ [] ∧ place = directory ++ parts := by
  rw [below?]
  constructor
  · intro h
    split at h
    · next hp =>
      cases h
      refine ⟨?_, ?_⟩
      · rw [Ne, List.drop_eq_nil_iff]
        omega
      · conv => lhs; rw [← List.take_append_drop directory.length place, hp.2]
    · cases h
  · rintro ⟨hne, rfl⟩
    have := List.length_pos_iff.2 hne
    rw [if_pos ⟨by rw [List.length_append]; omega, List.take_left⟩, List.drop_left]

theorem mem_glob : parts ∈ glob t directory extension ↔
    parts ≠ [] ∧ (∃ e, t.entry? (directory ++ parts) = some e) ∧ extension <:+ parts.getLastD [] := by
  rw [glob, List.mem_filter, Text.endsWith_iff, List.mem_filterMap, ← and_assoc]
  refine and_congr_left fun _ => ?_
  simp only [below?_eq_some_iff]
  constructor
  · rintro ⟨e, he, hne, heq⟩
    have hplace : directory ++ parts ≠ [] := by simp [hne]
    exact ⟨hne, (FileTree.exists_entry?_iff hplace).2 (heq ▸ List.mem_map_of_mem he)⟩
  · rintro ⟨hne, he⟩
    have hplace : directory ++ parts ≠ [] := by simp [hne]
    obtain ⟨e, he, heq⟩ := List.mem_map.1 ((FileTree.exists_entry?_iff hplace).1 he)
    exact ⟨e, he, hne, heq⟩

theorem glob_nodup (ht : t.Distinct) (directory : FilePlace) (extension : Text) :
    (glob t directory extension).Nodup := by
  refine List.Pairwise.filter _ (List.pairwise_filterMap.2 ?_)
  refine (List.pairwise_map.1 ht).imp fun hne p hp q hq heq => hne ?_
  rw [(below?_eq_some_iff.1 hp).2, (below?_eq_some_iff.1 hq).2, heq]

theorem admits_iff : r.admits parts = true ↔ ∀ part ∈ parts, part ∉ r.excluded := by
  simp [admits]

theorem mem_under : parts ∈ r.under t directory ↔
    r.Wants parts ∧ ∃ e, t.entry? (directory ++ parts) = some e := by
  rw [under, (List.mergeSort_perm _ _).mem_iff, List.mem_flatMap]
  simp only [Text.mem_inOrder, List.mem_filter, mem_glob, admits_iff]
  constructor
  · rintro ⟨extension, hm, ⟨hne, he, stem, hs⟩, hadmits⟩
    refine ⟨⟨⟨parts.dropLast, stem, extension, ?_, hm⟩, hadmits⟩, he⟩
    rw [hs, List.getLastD_eq_getLast?, List.getLast?_eq_some_getLast hne, Option.getD_some,
      List.dropLast_append_getLast]
  · rintro ⟨⟨⟨before, stem, extension, rfl, hm⟩, hadmits⟩, he⟩
    refine ⟨extension, hm, ⟨by simp, he, stem, ?_⟩, hadmits⟩
    rw [List.getLastD_concat]

/-- What is found is in strictly ascending order, so nothing is found twice. -/
theorem under_ascending (hr : r.Separate) (ht : t.Distinct) (directory : FilePlace) :
    (r.under t directory).Pairwise (List.Lex (List.Lex (· < ·))) := by
  have hnodup : ((Text.inOrder r.extensions).flatMap fun extension =>
      (glob t directory extension).filter r.admits).Nodup := by
    refine List.pairwise_flatMap.2 ⟨fun e _ => (glob_nodup ht directory e).filter _, ?_⟩
    refine List.Pairwise.imp_of_mem ?_ (Text.inOrder_nodup r.extensions)
    intro e e' he he' hne p hp q hq heq
    have hp := (mem_glob.1 (List.mem_filter.1 hp).1).2.2
    have hq := (mem_glob.1 (List.mem_filter.1 hq).1).2.2
    exact hne (hr.eq (Text.mem_inOrder.1 he) (Text.mem_inOrder.1 he') hp (heq ▸ hq))
  have hsorted := @List.pairwise_mergeSort _ Path.partsLE (fun _ _ _ => Path.partsLE_trans)
    Path.partsLE_total ((Text.inOrder r.extensions).flatMap fun extension =>
      (glob t directory extension).filter r.admits)
  exact (hsorted.and ((List.mergeSort_perm _ _).nodup_iff.2 hnodup)).imp fun h =>
    Path.lex_of_partsLE h.1 h.2

end SourceRule

/-- No usual extension ends in another. -/
theorem Settings.sources_separate (s : Settings) : s.sources.Separate := by
  have h : ∀ e ∈ Settings.sourceExtensions, ∀ e' ∈ Settings.sourceExtensions,
      Text.endsWith e' e = true → e = e' := by decide
  exact fun e he e' he' hs => h e he e' he' (Text.endsWith_iff.2 hs)

namespace SourceRule

variable {w : Workspace} {p : Path} {place : FilePlace}

theorem expand_of_directory (r : SourceRule) (hp : w.locate p = .ok (some (place, .directory))) :
    r.expand w p = .ok ((r.under w.tree place).map fun parts => p ++ ⟨.here, parts⟩) := by
  rw [expand, hp]
  rfl

/-- What hangs behind a path is in the order of its own parts. -/
theorem lex_append_left (p : List Text) {q q' : List Text} (h : List.Lex (List.Lex (· < ·)) q q') :
    List.Lex (List.Lex (· < ·)) (p ++ q) (p ++ q') := by
  induction p with
  | nil => exact h
  | cons part p ih => exact .cons ih

/-- **A walk of a directory yields what stands below it under the name of a source and is not passed
over, in strictly ascending order.** These are the files among it just if there is no directory with
such a name. -/
theorem expand_directory (s : Settings) (hw : w.tree.Distinct)
    (hp : w.locate p = .ok (some (place, .directory))) :
    ∃ files, s.sources.expand w p = .ok files ∧
      (files.map Path.parts).Pairwise (List.Lex (List.Lex (· < ·))) ∧
      (∀ q, q ∈ files ↔ ∃ parts, q = p ++ ⟨.here, parts⟩ ∧ s.sources.Wants parts ∧
        ∃ e, w.tree.entry? (place ++ parts) = some e) ∧
      ((∀ q, q ∈ files ↔ ∃ parts, q = p ++ ⟨.here, parts⟩ ∧ s.sources.Wants parts ∧
          ∃ bytes, w.tree.entry? (place ++ parts) = some (.file bytes)) ↔
        ∀ parts, s.sources.Wants parts → w.tree.entry? (place ++ parts) ≠ some .directory) := by
  have hmem (q : Path) : q ∈ (s.sources.under w.tree place).map (fun parts => p ++ ⟨.here, parts⟩) ↔
      ∃ parts, q = p ++ ⟨.here, parts⟩ ∧ s.sources.Wants parts ∧
        ∃ e, w.tree.entry? (place ++ parts) = some e := by
    simp only [List.mem_map, mem_under, and_comm, eq_comm]
  refine ⟨_, expand_of_directory s.sources hp, ?_, hmem, fun hfiles parts hwants hdir => ?_, fun hno q => ?_⟩
  · rw [List.map_map, List.pairwise_map]
    exact (under_ascending s.sources_separate hw place).imp (lex_append_left p.parts)
  · obtain ⟨parts', heq, -, bytes, hfile⟩ :=
      (hfiles _).1 ((hmem _).2 ⟨parts, rfl, hwants, _, hdir⟩)
    obtain rfl : parts = parts' := List.append_cancel_left (congrArg Path.parts heq)
    rw [hdir] at hfile
    cases hfile
  · refine (hmem q).trans (exists_congr fun parts => and_congr_right fun _ =>
      and_congr_right fun hwants => ⟨fun ⟨e, he⟩ => ?_, fun ⟨bytes, he⟩ => ⟨_, he⟩⟩)
    cases e with
    | file bytes => exact ⟨bytes, he⟩
    | directory => exact absurd he (hno parts hwants)

section Example

/-- A directory `src` with two sources, one of them in a directory, and a third that is passed over. -/
def sourceTree : Workspace where
  tree := ((FileTree.empty.writeFile [text "src", text "lib", text "b.jsx"] []).writeFile
    [text "src", text "a.ts"] []).writeFile [text "src", text "dist", text "c.js"] []
  directory := Path.ofText (text "/")

/-- The directory has the name of a source. -/
def namedTree : Workspace where
  tree := (FileTree.empty.makeDirectory [text "src", text "lib.ts"]).writeFile
    [text "src", text "a.ts"] []
  directory := Path.ofText (text "/")

/-- A directory is found under the name of a source. -/
theorem expand_namedDirectory :
    (Settings.ofEnvironment []).sources.expand namedTree (Path.ofText (text "src")) =
      .ok [Path.ofText (text "src/a.ts"), Path.ofText (text "src/lib.ts")] ∧
    namedTree.locate (Path.ofText (text "src/lib.ts")) =
      .ok (some ([text "src", text "lib.ts"], .directory)) := by
  have hunder : (Settings.ofEnvironment []).sources.under namedTree.tree [text "src"] =
      [[text "a.ts"], [text "lib.ts"]] := List.mergeSort_of_pairwise (by decide +kernel)
  have hsrc : namedTree.locate (Path.ofText (text "src")) = .ok (some ([text "src"], .directory)) := rfl
  refine ⟨?_, rfl⟩
  rw [expand_of_directory _ hsrc, hunder]
  rfl

/-- What is passed over is not found, and nothing else is left out. -/
theorem expand_directory_plain :
    sourceTree.tree.Distinct ∧
    sourceTree.locate (Path.ofText (text "src")) = .ok (some ([text "src"], .directory)) ∧
    ∃ files, (Settings.ofEnvironment []).sources.expand sourceTree (Path.ofText (text "src")) = .ok files ∧
      Path.ofText (text "src/a.ts") ∈ files ∧ Path.ofText (text "src/lib/b.jsx") ∈ files ∧
      Path.ofText (text "src/dist/c.js") ∉ files := by
  have hw : sourceTree.tree.Distinct :=
    ((FileTree.distinct_empty.writeFile _ _).writeFile _ _).writeFile _ _
  have hp : sourceTree.locate (Path.ofText (text "src")) = .ok (some ([text "src"], .directory)) := rfl
  obtain ⟨files, hfiles, -, hmem, -⟩ := expand_directory (Settings.ofEnvironment []) hw hp
  refine ⟨hw, hp, files, hfiles, ?_, ?_, fun hc => ?_⟩
  · exact (hmem _).2 ⟨[text "a.ts"], rfl, ⟨⟨[], text "a", text ".ts", rfl, by decide⟩, by decide⟩, _, rfl⟩
  · exact (hmem _).2 ⟨[text "lib", text "b.jsx"], rfl,
      ⟨⟨[text "lib"], text "b", text ".jsx", rfl, by decide⟩, by decide⟩, _, rfl⟩
  · obtain ⟨parts, heq, ⟨-, hadmits⟩, -⟩ := (hmem _).1 hc
    have hparts : parts = [text "dist", text "c.js"] :=
      (List.cons.inj (congrArg Path.parts heq)).2.symm
    exact hadmits (text "dist") (by simp [hparts]) (by decide)

end Example

end SourceRule
end KeyTrace
