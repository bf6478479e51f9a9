/-
What one file more changes about what an import string names.

The paths that are tried do not depend on the files, and a new file changes what is found at a path
only if the path leads to it. So the answer either stays what it was or is the new file, and it is the
new file just if a path to it is tried before the old answer.
-/
import KeyTrace.Proofs.Files.Projects

namespace KeyTrace

namespace FileTree

/-- A tree has one file more than another, in a directory that is there. -/
structure Adds (t t' : FileTree) (f : FilePlace) : Prop where
  new : t.entry? f = none
  directory : t.entry? f.dropLast = some .directory
  file : ∃ bytes, t'.entry? f = some (.file bytes)
  others : ∀ place, place ≠ f → t'.entry? place = t.entry? place

theorem Adds.put {t : FileTree} {f : FilePlace} (hnew : t.entry? f = none)
    (hdir : t.entry? f.dropLast = some .directory) (bytes : List UInt8) :
    t.Adds (t.put f (.file bytes)) f := by
  have hne : f ≠ [] := by
    rintro rfl
    cases hnew
  have herase : (t.erase f).entries = t.entries := by
    rw [entry?_of_ne hne, List.lookup_eq_none_iff] at hnew
    refine List.filter_eq_self.2 fun e he => ?_
    rw [bne_iff_ne]
    exact fun heq => by simpa [heq] using hnew e he
  refine ⟨hnew, hdir, ⟨bytes, ?_⟩, fun place hplace => ?_⟩
  · rw [entry?_of_ne hne, FileTree.put, List.lookup_cons_self]
  · unfold FileTree.entry?
    rw [FileTree.put, herase, List.lookup_cons, beq_eq_false_iff_ne.2 hplace]

/-- What is left of parts from the root when `..` is taken out. -/
def placeOf (parts : List Text) : FilePlace := (parts.foldl Path.step []).reverse

/-- Every part is looked up in a directory that is there, the parts behind it taken along. -/
def Walks (t : FileTree) (behind parts : List Text) : Prop :=
  ∀ before part, before ++ [part] <+: parts →
    t.entry? (before.foldl Path.step behind).reverse = some .directory

variable {t t' : FileTree} {f : FilePlace} {behind parts : List Text} {part : Text}

theorem walks_nil (t : FileTree) (behind : List Text) : t.Walks behind [] :=
  fun before part h => absurd (List.prefix_nil.1 h) (by simp)

theorem walks_cons : t.Walks behind (part :: parts) ↔
    t.entry? behind.reverse = some .directory ∧ t.Walks (Path.step behind part) parts := by
  constructor
  · intro h
    refine ⟨h [] part ⟨parts, rfl⟩, fun before p hp => h (part :: before) p ?_⟩
    exact (List.prefix_cons_inj part).2 hp
  · rintro ⟨hd, h⟩ before p hp
    match before with
    | [] => exact hd
    | q :: before =>
      obtain ⟨heq, hrest⟩ := List.cons_prefix_cons.1 hp
      exact heq ▸ h before p hrest

/-- A step from a directory is looked at only for the length of its name. -/
theorem follow_of_directory (hd : t.entry? behind.reverse = some .directory) (part : Text)
    (parts : List Text) : t.follow behind.reverse (part :: parts) =
      if maxNameLength < byteLength part then .error ()
      else t.follow (Path.step behind part).reverse parts := by
  rw [FileTree.follow, hd, Path.step]
  dsimp only
  by_cases hup : part = Path.upPart
  · subst hup
    have hshort : ¬ maxNameLength < byteLength Path.upPart := by decide
    rw [if_pos rfl, if_neg hshort, if_pos rfl, List.dropLast_reverse]
  · rw [if_neg hup, if_neg hup, List.reverse_cons]

theorem follow_of_not_directory (hd : t.entry? behind.reverse ≠ some .directory) (part : Text)
    (parts : List Text) : t.follow behind.reverse (part :: parts) = .ok none := by
  rw [FileTree.follow]
  split
  · next he => exact absurd he hd
  · rfl

theorem Adds.directory_iff (h : t.Adds t' f) {place : FilePlace} :
    t'.entry? place = some .directory ↔ t.entry? place = some .directory := by
  by_cases hf : place = f
  · obtain ⟨bytes, hbytes⟩ := h.file
    rw [hf, hbytes, h.new]
    exact iff_of_false nofun nofun
  · rw [h.others place hf]

/-- One file more changes where parts lead only if they lead to it. -/
theorem Adds.follow (h : t.Adds t' f) : ∀ {parts behind : List Text} {found},
    t.follow behind.reverse parts = .ok found →
      (t'.Walks behind parts ∧ (parts.foldl Path.step behind).reverse = f →
        found = none ∧ ∃ bytes, t'.follow behind.reverse parts = .ok (some (f, .file bytes))) ∧
      (¬ (t'.Walks behind parts ∧ (parts.foldl Path.step behind).reverse = f) →
        t'.follow behind.reverse parts = .ok found)
  | [], behind, found, hfound => by
    rw [FileTree.follow] at hfound ⊢
    refine ⟨fun hleads => ?_, fun hnot => ?_⟩
    · obtain ⟨bytes, hbytes⟩ := h.file
      have hf := hleads.2
      rw [List.foldl_nil] at hf
      rw [hf, h.new] at hfound
      rw [hf, hbytes]
      exact ⟨(Except.ok.inj hfound).symm, bytes, rfl⟩
    · rw [h.others behind.reverse fun hf => hnot ⟨walks_nil t' behind, hf⟩, hfound]
  | part :: parts, behind, found, hfound => by
    by_cases hd : t.entry? behind.reverse = some .directory
    · have hd' := h.directory_iff.2 hd
      rw [walks_cons, and_iff_right hd', List.foldl_cons]
      rw [follow_of_directory hd] at hfound
      rw [follow_of_directory hd']
      split at hfound
      · cases hfound
      · next hshort =>
        rw [if_neg hshort]
        exact h.follow hfound
    · have hd' := mt h.directory_iff.1 hd
      rw [follow_of_not_directory hd] at hfound
      rw [follow_of_not_directory hd']
      exact ⟨fun hw => absurd (walks_cons.1 hw.1).1 hd', fun _ => hfound⟩

end FileTree

namespace Workspace

/-- A path leads to a file: it can be asked for, it is the file's place when `..` is taken out, and
every part of it is looked up in a directory that is there. -/
def LeadsTo (w : Workspace) (p : Path) (f : FilePlace) : Prop :=
  FileTree.isAskable (w.directory ++ p) = true ∧ FileTree.placeOf (w.directory ++ p).parts = f ∧
    w.tree.Walks [] (w.directory ++ p).parts

variable {w w' : Workspace} {f : FilePlace} {p : Path} {b : Bool}

/-- A path without `..` leads to a file just if it is the path of the file. -/
theorem leadsTo_iff (hf : w.tree.Walked f) (hask : FileTree.isAskable (w.directory ++ p) = true)
    (hnames : ∀ part ∈ (w.directory ++ p).parts, part ≠ Path.upPart) :
    w.LeadsTo p f ↔ (w.directory ++ p).parts = f := by
  have hstay {parts : List Text} (h : ∀ part ∈ parts, part ≠ Path.upPart) :
      (parts.foldl Path.step []).reverse = parts := by
    rw [Path.foldl_step_of_names h, List.append_nil, List.reverse_reverse]
  rw [LeadsTo, and_iff_right hask, FileTree.placeOf, hstay hnames]
  refine ⟨And.left, fun heq => ⟨heq, fun before part hb => ?_⟩⟩
  have hbefore : before <+: (w.directory ++ p).parts := (List.prefix_append before [part]).trans hb
  rw [hstay fun part hm => hnames part (hbefore.subset hm)]
  refine hf before (heq ▸ hbefore) fun hall => ?_
  have := hb.length_le
  rw [heq, ← hall, List.length_append, List.length_singleton] at this
  omega

theorem isFile_adds (h : w.tree.Adds w'.tree f) (hdir : w'.directory = w.directory)
    (hb : w.isFile p = .ok b) :
    (w'.LeadsTo p f → b = false ∧ w'.isFile p = .ok true) ∧
    (¬ w'.LeadsTo p f → w'.isFile p = .ok b) := by
  rw [isFile, locate, FileTree.locate] at hb
  rw [isFile, locate, FileTree.locate, LeadsTo, hdir]
  by_cases hask : FileTree.isAskable (w.directory ++ p) = true
  · rw [hask] at hb ⊢
    by_cases hlong : FileTree.byteLength (w.directory ++ p).toText > FileTree.maxPathLength
    · rw [if_neg (by simp), if_pos hlong] at hb
      cases hb
    · rw [if_neg (by simp), if_neg hlong] at hb ⊢
      cases hfollow : w.tree.follow [] (w.directory ++ p).parts with
      | error e =>
        rw [hfollow] at hb
        cases hb
      | ok found =>
        have hroot : w.tree.follow ([] : List Text).reverse (w.directory ++ p).parts = .ok found := hfollow
        obtain ⟨hnew, hsame⟩ := h.follow hroot
        rw [hfollow] at hb
        refine ⟨fun hleads => ?_, fun hnot => ?_⟩
        · obtain ⟨rfl, bytes, hbytes⟩ := hnew ⟨hleads.2.2, hleads.2.1⟩
          rw [List.reverse_nil] at hbytes
          rw [hbytes]
          exact ⟨(Except.ok.inj hb).symm, rfl⟩
        · have hsame := hsame fun hleads => hnot ⟨rfl, hleads.2, hleads.1⟩
          rw [List.reverse_nil] at hsame
          rw [hsame]
          exact hb
  · rw [if_pos (by simpa using hask)] at hb ⊢
    exact ⟨fun hw => absurd hw.1 hask, fun _ => hb⟩

end Workspace

namespace Resolver

/-- An import string is an alias, or goes on from it after slashes. -/
def GoesOn (short wanted rest : Text) : Prop :=
  ∃ slashes, wanted = short ++ (slashes ++ rest) ∧ (∀ c ∈ slashes, c = Path.slash) ∧
    rest.head? ≠ some Path.slash ∧ (slashes = [] → rest = [])

/-- The paths that an import string of a file stands for, before an ending is added: from the file's
directory and without `..` if it begins with a dot, from the root and then from its directory `src`
if it begins with `@/`, from the directory of the first alias that it goes on from, or none. -/
inductive StandsFor (r : Resolver) (workingDirectory file : Path) : Text → List Path → Prop
  | relative {rest : Text} : StandsFor r workingDirectory file (Path.dot :: rest)
      [Path.resolve workingDirectory (file.parent ++ Path.ofText (Path.dot :: rest))]
  | project {rest : Text} : StandsFor r workingDirectory file (text "@/" ++ rest)
      [r.root ++ Path.ofText rest, r.root ++ Path.ofText (text "src") ++ Path.ofText rest]
  | aliased {wanted short target rest : Text} {earlier later : Named Text} :
      wanted ≠ [] → wanted.head? ≠ some Path.dot → ¬ text "@/" <+: wanted →
      r.aliases = earlier ++ (short, target) :: later →
      (∀ a ∈ earlier, ∀ rest, ¬ GoesOn a.1 wanted rest) → GoesOn short wanted rest →
      StandsFor r workingDirectory file wanted [r.root ++ Path.ofText target ++ Path.ofText rest]
  | package {wanted : Text} : wanted ≠ [] → wanted.head? ≠ some Path.dot → ¬ text "@/" <+: wanted →
      (∀ a ∈ r.aliases, ∀ rest, ¬ GoesOn a.1 wanted rest) →
      StandsFor r workingDirectory file wanted []
  | nothing : StandsFor r workingDirectory file [] []

variable {r : Resolver} {w w' : Workspace} {file : Path} {short wanted rest : Text}
  {target : Text} {earlier later : Named Text} {bases : List Path} {f : FilePlace} {a : Option Path}

theorem GoesOn.rest_eq (h : GoesOn short wanted rest) :
    (wanted.drop short.length).dropWhile (· == Path.slash) = rest := by
  obtain ⟨slashes, rfl, hslashes, hhead, -⟩ := h
  rw [List.drop_left, List.dropWhile_append_of_pos fun c hc => beq_iff_eq.2 (hslashes c hc)]
  cases rest with
  | nil => rfl
  | cons c rest =>
    exact List.dropWhile_cons_of_neg fun hc => hhead (congrArg some (beq_iff_eq.1 hc))

theorem isUnder_iff : isUnder short wanted = true ↔ ∃ rest, GoesOn short wanted rest := by
  rw [isUnder, Bool.or_eq_true, beq_iff_eq, Text.startsWith_iff]
  constructor
  · rintro (rfl | ⟨rest, rfl⟩)
    · exact ⟨[], [], by simp, by simp, by simp, fun _ => rfl⟩
    · refine ⟨rest.dropWhile (· == Path.slash), Path.slash :: rest.takeWhile (· == Path.slash), ?_, ?_,
        ?_, by simp⟩
      · rw [List.cons_append, List.takeWhile_append_dropWhile, List.append_assoc,
          List.singleton_append]
      · intro c hc
        rcases List.mem_cons.1 hc with rfl | hc
        · rfl
        · exact beq_iff_eq.1 (List.all_eq_true.1 List.all_takeWhile c hc)
      · intro hhead
        have := List.head?_dropWhile_not (· == Path.slash) rest
        rw [hhead] at this
        cases this
  · rintro ⟨rest, slashes, rfl, hslashes, -, hend⟩
    cases slashes with
    | nil => exact .inl (by simp [hend rfl])
    | cons c slashes =>
      obtain rfl := hslashes c List.mem_cons_self
      exact .inr ⟨slashes ++ rest, by simp⟩

theorem bases_alias (hne : wanted ≠ []) (hdot : wanted.head? ≠ some Path.dot)
    (hproject : ¬ text "@/" <+: wanted) : r.bases w file wanted =
      match r.aliases.find? fun a => isUnder a.1 wanted with
      | some (short, target) => .ok [r.root ++ Path.ofText target ++
          Path.ofText ((wanted.drop short.length).dropWhile (· == Path.slash))]
      | none => .ok [] := by
  have hafter : Text.after? (text "@/") wanted = none := by
    rw [← Option.not_isSome_iff_eq_none]
    exact fun h => hproject (Text.startsWith_iff.1 h)
  rw [bases, if_neg hne, if_neg hdot]
  split
  · next h => cases hafter.symm.trans h
  · rfl

theorem find?_isUnder (hearlier : ∀ a ∈ earlier, ∀ rest, ¬ GoesOn a.1 wanted rest)
    (h : GoesOn short wanted rest) :
    (earlier ++ (short, target) :: later).find? (fun a => isUnder a.1 wanted) =
      some (short, target) := by
  refine List.find?_eq_some_iff_append.2 ⟨isUnder_iff.2 ⟨rest, h⟩, earlier, later, rfl, fun a ha => ?_⟩
  rw [Bool.not_eq_true', ← Bool.not_eq_true, isUnder_iff]
  exact fun ⟨rest, hrest⟩ => hearlier a ha rest hrest

theorem StandsFor.bases_eq {bs : List Path} (hs : r.StandsFor w.directory file wanted bs)
    (h : r.bases w file wanted = .ok bases) : bs = bases := by
  cases hs with
  | relative =>
    rw [Resolver.bases, if_neg (List.cons_ne_nil _ _), if_pos List.head?_cons, Workspace.resolve] at h
    split at h
    · cases h
    · split at h
      · cases h
      · exact Except.ok.inj h
  | project => exact Except.ok.inj ((bases_project r w file _).symm.trans h)
  | aliased hne hdot hproject haliases hearlier hrest =>
    rw [bases_alias hne hdot hproject, haliases, find?_isUnder hearlier hrest] at h
    rw [← hrest.rest_eq]
    exact Except.ok.inj h
  | package hne hdot hproject hnone =>
    have hfind : (r.aliases.find? fun a => isUnder a.1 wanted) = none :=
      List.find?_eq_none.2 fun a ha hu => (isUnder_iff.1 hu).elim (hnone a ha)
    rw [bases_alias hne hdot hproject, hfind] at h
    exact Except.ok.inj h
  | nothing => exact Except.ok.inj h

theorem exists_standsFor (r : Resolver) (workingDirectory file : Path) (wanted : Text) :
    ∃ bs, r.StandsFor workingDirectory file wanted bs := by
  by_cases hne : wanted = []
  · subst hne
    exact ⟨_, .nothing⟩
  by_cases hdot : wanted.head? = some Path.dot
  · obtain ⟨rest, rfl⟩ := List.head?_eq_some_iff.1 hdot
    exact ⟨_, .relative⟩
  by_cases hproject : text "@/" <+: wanted
  · obtain ⟨rest, rfl⟩ := hproject
    exact ⟨_, .project⟩
  cases hfind : r.aliases.find? fun a => isUnder a.1 wanted with
  | none =>
    exact ⟨_, .package hne hdot hproject fun a ha rest hrest =>
      List.find?_eq_none.1 hfind a ha (isUnder_iff.2 ⟨rest, hrest⟩)⟩
  | some a =>
    obtain ⟨hunder, earlier, later, haliases, hearlier⟩ := List.find?_eq_some_iff_append.1 hfind
    obtain ⟨rest, hrest⟩ := isUnder_iff.1 hunder
    refine ⟨_, .aliased hne hdot hproject haliases (fun b hb rest hr => ?_) hrest⟩
    simpa [isUnder_iff.2 ⟨rest, hr⟩] using hearlier b hb

/-- What is looked for is what the import string stands for, and nothing else. -/
theorem standsFor_iff (h : r.bases w file wanted = .ok bases) (bs : List Path) :
    r.StandsFor w.directory file wanted bs ↔ bs = bases := by
  refine ⟨fun hs => hs.bases_eq h, fun heq => ?_⟩
  obtain ⟨bs', hs⟩ := exists_standsFor r w.directory file wanted
  rwa [heq, ← hs.bases_eq h]

theorem behind_first {q p : Path} {l before after : List Path} (hl : q :: l = before ++ p :: after)
    (hne : q ≠ p) : ∃ before', before = q :: before' ∧ l = before' ++ p :: after := by
  rcases List.cons_eq_append_iff.1 hl with ⟨-, heq⟩ | behind
  · exact absurd (List.cons.inj heq).1.symm hne
  · exact behind

/-- One file more changes which of some paths is found first only if one of them leads to it. -/
theorem firstFile_adds (h : w.tree.Adds w'.tree f) (hdir : w'.directory = w.directory) :
    ∀ {l}, firstFile w l = .ok a →
      (∃ before p after, l = before ++ p :: after ∧ w'.LeadsTo p f ∧ (∀ b ∈ before, a ≠ some b) ∧
        firstFile w' l = .ok (some p)) ∨
      (∀ before p after, l = before ++ p :: after → w'.LeadsTo p f → ∃ b ∈ before, a = some b) ∧
        firstFile w' l = .ok a
  | [], ha => .inr ⟨fun before p after hl => by simp at hl, ha⟩
  | q :: l, ha => by
    rw [firstFile] at ha ⊢
    cases hq : w.isFile q with
    | error e =>
      rw [hq] at ha
      cases ha
    | ok b =>
      obtain ⟨hnew, hsame⟩ := Workspace.isFile_adds h hdir hq
      rw [hq] at ha
      -- A path that leads to the new file was no file before; any other is what it was.
      by_cases hleads : w'.LeadsTo q f
      · rw [(hnew hleads).2]
        exact .inl ⟨[], q, l, rfl, hleads, List.forall_mem_nil _, rfl⟩
      · rw [hsame hleads]
        have hne {p : Path} (hp : w'.LeadsTo p f) : q ≠ p := fun heq => hleads (heq ▸ hp)
        cases b with
        | true =>
          refine .inr ⟨fun before p after hl hp => ?_, ha⟩
          obtain ⟨before', rfl, -⟩ := behind_first hl (hne hp)
          exact ⟨q, List.mem_cons_self, (Except.ok.inj ha).symm⟩
        | false =>
          rcases firstFile_adds h hdir ha with ⟨before, p, after, rfl, hp, hbefore, hfound⟩ | ⟨hlast, hfound⟩
          · refine .inl ⟨q :: before, p, after, rfl, hp, List.forall_mem_cons.2 ⟨?_, hbefore⟩, hfound⟩
            rintro rfl
            have := (mem_of_firstFile ha).2
            rw [hq] at this
            cases this
          · refine .inr ⟨fun before p after hl hp => ?_, hfound⟩
            obtain ⟨before', rfl, hrest⟩ := behind_first hl (hne hp)
            obtain ⟨b, hb, hab⟩ := hlast before' p after hrest hp
            exact ⟨b, List.mem_cons_of_mem q hb, hab⟩

/-- **One file more is what an import string names just if a path to it is tried before what the
string named without it; if not, the string names what it did.** The paths that are tried are those
that the string stands for, each as it is, then with the endings of modules and then with those of
directories. -/
theorem resolve_adds (h : w.tree.Adds w'.tree f) (hdir : w'.directory = w.directory)
    (ha : r.resolve w file wanted = .ok a) :
    ∃ bases a', (∀ bs, r.StandsFor w.directory file wanted bs ↔ bs = bases) ∧
      r.resolve w' file wanted = .ok a' ∧
      let tried := bases.flatMap fun base => base ::
        ([".ts", ".tsx", ".js", ".jsx", "/index.ts", "/index.tsx", "/index.js", "/index.jsx"].map
          fun ending => Path.ofText (base.toText ++ text ending))
      let isNew := ∃ p, a' = some p ∧ w'.LeadsTo p f
      (a' = a ∨ isNew) ∧
      (isNew ↔ ∃ before p after, tried = before ++ p :: after ∧ w'.LeadsTo p f ∧
        ∀ b ∈ before, a ≠ some b) := by
  rw [resolve, candidates] at ha
  cases hbases : r.bases w file wanted with
  | error e =>
    rw [hbases] at ha
    cases ha
  | ok bases =>
    rw [hbases] at ha
    have hbases' : r.bases w' file wanted = .ok bases := by
      rw [← hbases, Resolver.bases, Resolver.bases, Workspace.resolve, Workspace.resolve, hdir]
    have hnot {p : Path} (hp : w'.LeadsTo p f) : a ≠ some p := by
      rintro rfl
      have hfile := (mem_of_firstFile ha).2
      cases ((Workspace.isFile_adds h hdir hfile).1 hp).1
    rcases firstFile_adds h hdir ha with ⟨before, p, after, hl, hp, hbefore, hfound⟩ | ⟨hlast, hfound⟩
    · refine ⟨bases, some p, standsFor_iff hbases, ?_, .inr ⟨p, rfl, hp⟩, ?_⟩
      · rw [resolve, candidates, hbases']
        exact hfound
      · exact iff_of_true ⟨p, rfl, hp⟩ ⟨before, p, after, hl, hp, hbefore⟩
    · refine ⟨bases, a, standsFor_iff hbases, ?_, .inl rfl, iff_of_false ?_ ?_⟩
      · rw [resolve, candidates, hbases']
        exact hfound
      · rintro ⟨p, hap, hp⟩
        exact hnot hp hap
      · rintro ⟨before, p, after, hl, hp, hbefore⟩
        obtain ⟨b, hb, hab⟩ := hlast before p after hl hp
        exact hbefore b hb hab

section Example

/-- A project `/p` with a directory `lib` that has an index. -/
def indexed : Workspace where
  tree := FileTree.empty.writeFile [text "p", text "lib", text "index.ts"] []
  directory := Path.ofText (text "/")

/-- The place of a module beside the directory, with its name. -/
def siblingPlace : FilePlace := [text "p", text "lib.tsx"]

/-- The project with the module. -/
def withSibling : Workspace := { indexed with tree := indexed.tree.put siblingPlace (.file []) }

def indexedProject : Resolver := ofProject indexed (Path.ofText (text "p")) []

theorem adds_sibling : indexed.tree.Adds withSibling.tree siblingPlace := .put rfl rfl []

/-- A module beside a directory is found before the index of the directory. -/
theorem resolve_adds_sibling :
    indexed.tree.Adds withSibling.tree siblingPlace ∧ withSibling.directory = indexed.directory ∧
    indexedProject.resolve indexed (Path.ofText (text "p/a.ts")) (text "@/" ++ text "lib") =
      .ok (some (Path.ofText (text "/p/lib/index.ts"))) ∧
    ∃ p, indexedProject.resolve withSibling (Path.ofText (text "p/a.ts")) (text "@/" ++ text "lib") =
      .ok (some p) ∧ withSibling.LeadsTo p siblingPlace := by
  have ha : indexedProject.resolve indexed (Path.ofText (text "p/a.ts")) (text "@/" ++ text "lib") =
      .ok (some (Path.ofText (text "/p/lib/index.ts"))) := rfl
  obtain ⟨bases, a', hbases, ha', -, hnew⟩ := resolve_adds adds_sibling rfl ha
  have hleads : withSibling.LeadsTo (Path.ofText (text "/p/lib.tsx")) siblingPlace := by
    have hway : ∀ before ∈ siblingPlace.inits, before ≠ siblingPlace →
        withSibling.tree.entry? before = some .directory := by decide
    exact (Workspace.leadsTo_iff (fun before hb => hway before ((List.mem_inits _ _).2 hb)) rfl
      (by decide)).2 rfl
  obtain rfl := (hbases _).1 .project
  obtain ⟨p, rfl, hp⟩ := hnew.2 ⟨[Path.ofText (text "/p/lib"), Path.ofText (text "/p/lib.ts")], _, _, rfl,
    hleads, by decide⟩
  exact ⟨adds_sibling, rfl, ha, p, ha', hp⟩

end Example

end Resolver

end KeyTrace
