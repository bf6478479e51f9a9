/-
Where the imports of a project lead that begin with `@/`.

What follows `@/` is read as a path from the root of the project. If it is relative, has a
part and never leads above where it starts, then what is found lies below the root. It
need not otherwise: `..` is followed past the root, a slash in front makes it a path of its
own, and where there is nothing the endings of modules are added to the root's own name.
-/
import KeyTrace.Files.Resolver
import KeyTrace.Proofs.Files.Paths

namespace KeyTrace

namespace FileTree

/-- All places on the way to a place are directories. -/
def Walked (t : FileTree) (place : FilePlace) : Prop :=
  ∀ before, before <+: place → before ≠ place → t.entry? before = some .directory

variable {t : FileTree} {place found : FilePlace} {e : FileEntry}

theorem walked_root (t : FileTree) : t.Walked [] := fun _ h hne => absurd (List.prefix_nil.1 h) hne

theorem Walked.entry?_dropLast (h : t.Walked place) : t.entry? place.dropLast = some .directory := by
  cases hp : place with
  | nil => rfl
  | cons name names =>
    refine h _ (hp ▸ List.dropLast_prefix place) fun heq => ?_
    have hlen := congrArg List.length heq
    rw [hp, List.length_dropLast, List.length_cons] at hlen
    omega

theorem Walked.up (h : t.Walked place) : t.Walked place.dropLast := by
  intro before hb hne
  have hb' := hb.trans (List.dropLast_prefix place)
  refine h before hb' fun heq => hne ?_
  exact List.IsPrefix.eq_of_length_le hb (heq ▸ (List.dropLast_prefix place).length_le)

theorem Walked.on (h : t.Walked place) (hd : t.entry? place = some .directory) (name : Text) :
    t.Walked (place ++ [name]) := by
  intro before hb hne
  have hb : before <+: place := (List.prefix_concat_iff.1 hb).resolve_left hne
  by_cases heq : before = place
  · rw [heq, hd]
  · exact h before hb heq

theorem follow_up : ∀ {parts : List Text} {place : FilePlace}, t.Walked place →
    t.follow place (parts ++ [Path.upPart]) = .ok (some (found, e)) → e = .directory
  | [], place, hw, h => by
    rw [List.nil_append, follow] at h
    split at h
    · rw [if_pos rfl, follow, hw.entry?_dropLast] at h
      cases h
      rfl
    · cases h
  | p :: parts, place, hw, h => by
    rw [List.cons_append, follow] at h
    split at h
    · next hd =>
      split at h
      · exact follow_up hw.up h
      · split at h
        · cases h
        · exact follow_up (hw.on hd p) h
    · cases h

end FileTree

namespace Path

/-- A directory from the root, without `..`. -/
structure Resolved (p : Path) : Prop where
  anchored : p.anchor ≠ .here
  wellFormed : p.WellFormed
  names : ∀ part ∈ p.parts, part ≠ upPart

/-- Without `.` and `..` a path leads strictly below a directory. -/
def Below (w dir p : Path) : Prop :=
  ∃ more, more ≠ [] ∧ resolve w p = ⟨dir.anchor, dir.parts ++ more⟩

/-- A route comes back to a directory that it starts from: down by the last names of the directory, as
many as it has led up, and on. -/
def Route.Returns (r : Route) (dir : Path) : Prop :=
  ∃ more, more ≠ [] ∧ r.names.reverse = dir.parts.drop (dir.parts.length - r.ups) ++ more

variable {w dir p : Path} {parts : List Text} {part : Text}

theorem append_of_anchored {q : Path} (h : q.anchor ≠ .here) (p : Path) : p ++ q = q := if_neg h

theorem resolve_of_anchored {a : Anchor} (ha : a ≠ .here) (w : Path) (parts : List Text) :
    resolve w ⟨a, parts⟩ = ⟨a, (parts.foldl step []).reverse⟩ := by
  rw [resolve, append_of_anchored (q := ⟨a, parts⟩) ha]

theorem resolved_resolve (hw : w.WellFormed) (ha : w.anchor ≠ .here) (hp : p.WellFormed) :
    (resolve w p).Resolved := by
  have hboth : (w ++ p).anchor ≠ .here ∧ (w ++ p).WellFormed := by
    by_cases h : p.anchor = .here
    · rw [show w ++ p = ⟨w.anchor, w.parts ++ p.parts⟩ from if_pos h]
      exact ⟨ha, fun part hm => (List.mem_append.1 hm).elim (hw part) (hp part)⟩
    · rw [append_of_anchored h]
      exact ⟨h, hp⟩
  have hparts {part : Text} (hm : part ∈ (resolve w p).parts) :
      part ∈ (w ++ p).parts ∧ part ≠ upPart :=
    (mem_foldl_step (List.mem_reverse.1 hm)).resolve_left List.not_mem_nil
  exact ⟨hboth.1, fun part hm => hboth.2 part (hparts hm).1, fun part hm => (hparts hm).2⟩

/-- A path from a directory leads below it if the route of its parts comes back. -/
theorem below_iff (hd : dir.Resolved) (w : Path) (parts : List Text) :
    Below w dir ⟨dir.anchor, dir.parts ++ parts⟩ ↔ (route parts).Returns dir := by
  have hsplit (m : Nat) (names more : List Text) :
      dir.parts.take m ++ names = dir.parts ++ more ↔ names = dir.parts.drop m ++ more := by
    rw [← List.append_cancel_left_eq (dir.parts.take m) names, ← List.append_assoc,
      List.take_append_drop]
  rw [Below, Route.Returns, resolve_of_anchored hd.anchored, List.foldl_append,
    foldl_step_of_names hd.names, List.append_nil, foldl_step, List.reverse_append, List.drop_reverse,
    List.reverse_reverse]
  simp only [Path.mk.injEq, true_and, hsplit]

theorem Stays.returns (h : Stays parts) (hpart : part ≠ upPart) (dir : Path) :
    (route (parts ++ [part])).Returns dir := by
  rw [route_append_singleton, Route.walk_of_ne _ hpart, h.route_spec.1]
  refine ⟨(part :: (route parts).names).reverse, by simp, ?_⟩
  rw [Nat.sub_zero, List.drop_length, List.nil_append]

theorem below_name (hd : dir.Resolved) (w : Path) (hpart : part ≠ upPart) :
    Below w dir ⟨dir.anchor, dir.parts ++ [part]⟩ := by
  have hstays : Stays [] := by decide
  exact (below_iff hd w [part]).2 (hstays.returns hpart dir)

theorem Below.length_lt (hd : dir.Resolved) (hparts : ∀ part ∈ parts, part ≠ upPart)
    (h : Below w dir ⟨dir.anchor, parts⟩) : dir.parts.length < parts.length := by
  obtain ⟨more, hmore, heq⟩ := h
  rw [resolve_of_anchored hd.anchored, foldl_step_of_names hparts, List.append_nil,
    List.reverse_reverse, Path.mk.injEq] at heq
  rw [heq.2, List.length_append]
  exact Nat.lt_add_of_pos_right (List.length_pos_iff.2 hmore)

end Path

theorem Workspace.isFile_up {w : Workspace} {a : Anchor} (ha : a ≠ .here) (parts : List Text) :
    w.isFile ⟨a, parts ++ [Path.upPart]⟩ ≠ .ok true := by
  intro h
  rw [isFile] at h
  cases hl : w.locate ⟨a, parts ++ [Path.upPart]⟩ with
  | error f =>
    rw [hl] at h
    cases h
  | ok o =>
    rw [hl] at h
    match o, h with
    | some (found, .file bytes), _ =>
      rw [locate, Path.append_of_anchored (q := ⟨a, parts ++ [Path.upPart]⟩) ha, FileTree.locate] at hl
      split at hl
      · cases hl
      · split at hl
        · cases hl
        · cases hf : w.tree.follow [] (parts ++ [Path.upPart]) with
          | error f =>
            rw [hf] at hl
            cases hl
          | ok o =>
            rw [hf] at hl
            cases hl
            cases FileTree.follow_up (FileTree.walked_root w.tree) hf

namespace Resolver

variable {w : Workspace} {r : Resolver} {root file p q base : Path} {rest : Text} {parts : List Text}

theorem mem_of_firstFile : ∀ {l : List Path}, firstFile w l = .ok (some p) →
    p ∈ l ∧ w.isFile p = .ok true
  | [], h => by cases h
  | q :: l, h => by
    rw [firstFile] at h
    cases hq : w.isFile q with
    | error f =>
      rw [hq] at h
      cases h
    | ok b =>
      rw [hq] at h
      cases b with
      | false =>
        obtain ⟨hm, hp⟩ := mem_of_firstFile h
        exact ⟨List.mem_cons_of_mem q hm, hp⟩
      | true =>
        cases h
        exact ⟨List.mem_cons_self, hq⟩

theorem moduleSuffixes_spec : ∀ s ∈ moduleSuffixes, (Path.slash ∉ s ∧ 2 < s.length) ∨
    (s.head? = some Path.slash ∧ Path.isPart s.tail = true ∧ Path.slash ∉ s.tail ∧
      s.tail ≠ Path.upPart) := by
  decide

/-- What is tried for a path is the path itself, or ends in another name. -/
theorem mem_candidatesAt {a : Anchor} (ha : a ≠ .here) (hne : parts ≠ [])
    (hwf : ∀ part ∈ parts, Path.Proper part) (h : p ∈ candidatesAt ⟨a, parts⟩) :
    p = ⟨a, parts⟩ ∨ ∃ init last, (init = parts ∨ init = parts.dropLast) ∧ last ≠ Path.upPart ∧
      p = ⟨a, init ++ [last]⟩ := by
  rcases List.mem_cons.1 h with rfl | h
  · exact .inl rfl
  obtain ⟨s, hs, rfl⟩ := List.mem_map.1 h
  refine .inr ?_
  have hread {init : List Text} {last : Text} (hinit : ∀ part ∈ init, Path.Proper part)
      (hlast : Path.Proper last) :
      Path.ofText (Path.toText ⟨a, init ++ [last]⟩) = ⟨a, init ++ [last]⟩ :=
    Path.ofText_toText ha (by simp) fun part hm => (List.mem_append.1 hm).elim (hinit part)
      fun hm => List.mem_singleton.1 hm ▸ hlast
  obtain ⟨hslash, hlen⟩ | ⟨hhead, hpart, hslash, hup⟩ := moduleSuffixes_spec s hs
  · obtain ⟨init, last, rfl⟩ : ∃ init last, parts = init ++ [last] :=
      ⟨_, _, (List.dropLast_append_getLast hne).symm⟩
    have hlong : 2 < (last ++ s).length := by
      rw [List.length_append]
      omega
    have hlast : Path.Proper (last ++ s) := by
      refine ⟨?_, fun hm => (List.mem_append.1 hm).elim (hwf last (by simp)).slash hslash⟩
      rw [Path.isPart, Bool.and_eq_true, Bool.not_eq_true', List.isEmpty_eq_false_iff, bne_iff_ne]
      exact ⟨fun h => by simp [h] at hlong, fun h => by simp [h] at hlong⟩
    refine ⟨init, last ++ s, .inr (List.dropLast_concat ..).symm, fun h => ?_, ?_⟩
    · rw [h] at hlong
      exact absurd hlong (by decide)
    · rw [Path.toText_append_last ha, hread (fun part hm => hwf part (by simp [hm])) hlast]
  · obtain ⟨name, rfl⟩ := List.head?_eq_some_iff.1 hhead
    refine ⟨parts, name, .inl rfl, hup, ?_⟩
    rw [Path.toText_append_slash ha hne]
    exact hread hwf ⟨hpart, hslash⟩

/-- What is asked for behind `@/` stays where it starts: it is relative, has a part and never leads
further up than down. -/
structure Contained (asked : Path) : Prop where
  relative : asked.anchor = .here
  named : asked.parts ≠ []
  stays : Path.Stays asked.parts

theorem bases_project (r : Resolver) (w : Workspace) (file : Path) (rest : Text) :
    r.bases w file (text "@/" ++ rest) = .ok [r.root ++ Path.ofText rest,
      r.root ++ Path.ofText (text "src") ++ Path.ofText rest] := by
  have hafter : Text.after? (text "@/") (text "@/" ++ rest) = some rest :=
    Text.after?_eq_some_iff.2 rfl
  have hhead : (text "@/" ++ rest).head? ≠ some Path.dot := by
    rw [show (text "@/" ++ rest).head? = some 64 from rfl]
    decide
  rw [bases, if_neg (List.append_ne_nil_of_left_ne_nil (by decide) rest), if_neg hhead, hafter]

/-- What is found lies at the path that is asked for, from the root or from its directory `src`, and
is a file. -/
theorem of_resolve (h : r.resolve w file (text "@/" ++ rest) = .ok (some p)) :
    (p ∈ candidatesAt (r.root ++ Path.ofText rest) ∨
      p ∈ candidatesAt (r.root ++ Path.ofText (text "src") ++ Path.ofText rest)) ∧
    w.isFile p = .ok true := by
  rw [resolve, candidates, bases_project] at h
  obtain ⟨hm, hp⟩ := mem_of_firstFile h
  simpa using And.intro hm hp

theorem eq_of_mem_candidatesAt (hroot : root.Resolved) (hne : parts ≠ [])
    (hwf : ∀ part ∈ parts, Path.Proper part)
    (h : p ∈ candidatesAt ⟨root.anchor, root.parts ++ parts⟩) (hp : w.isFile p = .ok true) :
    ∃ init last, init <+: parts ∧ last ≠ Path.upPart ∧
      p = ⟨root.anchor, root.parts ++ (init ++ [last])⟩ := by
  have hall : ∀ part ∈ root.parts ++ parts, Path.Proper part := fun part hm =>
    (List.mem_append.1 hm).elim (hroot.wellFormed part) (hwf part)
  obtain rfl | ⟨init, last, hinit, hlast, rfl⟩ :=
    mem_candidatesAt hroot.anchored (List.append_ne_nil_of_right_ne_nil _ hne) hall h
  · obtain ⟨init, last, rfl⟩ : ∃ init last, parts = init ++ [last] :=
      ⟨_, _, (List.dropLast_append_getLast hne).symm⟩
    refine ⟨init, last, List.prefix_append init [last], ?_, rfl⟩
    rintro rfl
    rw [← List.append_assoc] at hp
    exact Workspace.isFile_up hroot.anchored _ hp
  · rw [List.dropLast_append_of_ne_nil hne] at hinit
    rcases hinit with rfl | rfl
    · exact ⟨parts, last, List.prefix_rfl, hlast, by rw [List.append_assoc]⟩
    · exact ⟨parts.dropLast, last, List.dropLast_prefix parts, hlast, by rw [List.append_assoc]⟩

theorem append_of_relative (h : (Path.ofText rest).anchor = .here) (root : Path) :
    root ++ Path.ofText rest = ⟨root.anchor, root.parts ++ (Path.ofText rest).parts⟩ ∧
    root ++ Path.ofText (text "src") ++ Path.ofText rest =
      ⟨root.anchor, root.parts ++ text "src" :: (Path.ofText rest).parts⟩ := by
  have hsrc : root ++ Path.ofText (text "src") = ⟨root.anchor, root.parts ++ [text "src"]⟩ := rfl
  have happend (q : Path) : q ++ Path.ofText rest = ⟨q.anchor, q.parts ++ (Path.ofText rest).parts⟩ :=
    if_pos h
  rw [happend, hsrc, happend, List.append_assoc, List.singleton_append]
  exact ⟨rfl, rfl⟩

section Found

variable (hroot : r.root.Resolved) (h : r.resolve w file (text "@/" ++ rest) = .ok (some p))

include h

theorem of_relative (hrel : (Path.ofText rest).anchor = .here) :
    ∃ parts, (parts = (Path.ofText rest).parts ∨ parts = text "src" :: (Path.ofText rest).parts) ∧
      (∀ part ∈ parts, Path.Proper part) ∧ p ∈ candidatesAt ⟨r.root.anchor, r.root.parts ++ parts⟩ := by
  obtain ⟨hm, -⟩ := of_resolve h
  obtain ⟨hbase, hsrc⟩ := append_of_relative hrel r.root
  rw [hbase, hsrc] at hm
  have hproper := Path.wellFormed_ofText rest
  rcases hm with hm | hm
  · exact ⟨_, .inl rfl, hproper, hm⟩
  · exact ⟨_, .inr rfl, List.forall_mem_cons.2 ⟨⟨by decide, by decide⟩, hproper⟩, hm⟩

include hroot

theorem below_of_stays (hm : p ∈ candidatesAt ⟨r.root.anchor, r.root.parts ++ parts⟩)
    (hne : parts ≠ []) (hwf : ∀ part ∈ parts, Path.Proper part) (hstays : Path.Stays parts) :
    Path.Below w.directory r.root p := by
  obtain ⟨init, last, ⟨more, rfl⟩, hlast, rfl⟩ :=
    eq_of_mem_candidatesAt hroot hne hwf hm (of_resolve h).2
  exact (Path.below_iff hroot w.directory _).2 (hstays.of_append.returns hlast r.root)

theorem below_of_contained (hc : Contained (Path.ofText rest)) : Path.Below w.directory r.root p := by
  obtain ⟨parts, rfl | rfl, hwf, hm⟩ := of_relative h hc.relative
  · exact below_of_stays hroot h hm hc.named hwf hc.stays
  · exact below_of_stays hroot h hm (List.cons_ne_nil _ _) hwf (hc.stays.cons_name (by decide))

theorem below_iff_returns (hrel : (Path.ofText rest).anchor = .here)
    (hne : (Path.ofText rest).parts ≠ []) : Path.Below w.directory r.root p ↔
      (Path.route (p.parts.drop r.root.parts.length)).Returns r.root := by
  obtain ⟨parts, hparts, hwf, hm⟩ := of_relative h hrel
  have hne : parts ≠ [] := by rcases hparts with rfl | rfl <;> simp [hne]
  obtain ⟨init, last, -, -, rfl⟩ := eq_of_mem_candidatesAt hroot hne hwf hm (of_resolve h).2
  rw [Path.below_iff hroot, List.drop_left]

/-- Where nothing is asked for, an extension behind the root's own name leads beside the root. -/
theorem below_iff_length (hrel : (Path.ofText rest).anchor = .here)
    (hnone : (Path.ofText rest).parts = []) (hparts : r.root.parts ≠ []) :
    Path.Below w.directory r.root p ↔ r.root.parts.length < p.parts.length := by
  obtain ⟨parts, hor, hwf, hm⟩ := of_relative h hrel
  rw [hnone] at hor
  rcases hor with rfl | rfl
  · rw [List.append_nil] at hm
    obtain rfl | ⟨init, last, rfl | rfl, hlast, rfl⟩ :=
      mem_candidatesAt hroot.anchored hparts hroot.wellFormed hm
    · exact iff_of_false (fun hb => Nat.lt_irrefl _ (hb.length_lt hroot hroot.names))
        (Nat.lt_irrefl _)
    · exact iff_of_true (Path.below_name hroot w.directory hlast) (by simp)
    · have hsame : (r.root.parts.dropLast ++ [last]).length = r.root.parts.length := by
        have := List.length_pos_iff.2 hparts
        rw [List.length_append, List.length_dropLast, List.length_singleton]
        omega
      have hnames : ∀ part ∈ r.root.parts.dropLast ++ [last], part ≠ Path.upPart := fun part hp =>
        (List.mem_append.1 hp).elim (fun hp => hroot.names part (List.mem_of_mem_dropLast hp))
          fun hp => List.mem_singleton.1 hp ▸ hlast
      exact iff_of_false (fun hb => (hb.length_lt hroot hnames).ne hsame.symm) (by simp [hsame])
  · have hb := below_of_stays hroot h hm (List.cons_ne_nil _ _) hwf (by decide)
    obtain ⟨init, last, -, -, rfl⟩ :=
      eq_of_mem_candidatesAt hroot (List.cons_ne_nil _ _) hwf hm (of_resolve h).2
    exact iff_of_true hb (by simp)

end Found

theorem resolve_of_anchored (habs : (Path.ofText rest).anchor ≠ .here) (r : Resolver)
    (w : Workspace) (file : Path) : r.resolve w file (text "@/" ++ rest) =
      firstFile w (candidatesAt (Path.ofText rest) ++ candidatesAt (Path.ofText rest)) := by
  rw [resolve, candidates, bases_project, Path.append_of_anchored habs, Path.append_of_anchored habs]
  exact congrArg (firstFile w) (by simp)

/-- **What a project finds behind `@/` lies strictly below its root if what is asked for stays where
it starts.** If it is relative and has a part, then what is found lies below the root just if its
route comes back; if it has no part, just if it has more parts than the root. If it is not relative,
every project finds the same. -/
theorem resolve_below (hw : w.directory.WellFormed) (ha : w.directory.anchor ≠ .here)
    (hroot : root.WellFormed) {aliases : Named Text}
    (h : (ofProject w root aliases).resolve w file (text "@/" ++ rest) = .ok (some p)) :
    let asked := Path.ofText rest
    let dir := (ofProject w root aliases).root
    (Contained asked → Path.Below w.directory dir p) ∧
    (asked.anchor = .here → asked.parts ≠ [] →
      (Path.Below w.directory dir p ↔ (Path.route (p.parts.drop dir.parts.length)).Returns dir)) ∧
    (asked.anchor = .here → asked.parts = [] → dir.parts ≠ [] →
      (Path.Below w.directory dir p ↔ dir.parts.length < p.parts.length)) ∧
    (asked.anchor ≠ .here → ∀ r : Resolver, r.resolve w file (text "@/" ++ rest) = .ok (some p)) := by
  intro asked dir
  have hdir : dir.Resolved := Path.resolved_resolve hw ha hroot
  exact ⟨below_of_contained hdir h, below_iff_returns hdir h, below_iff_length hdir h,
    fun habs r => (resolve_of_anchored habs r w file).trans
      ((resolve_of_anchored habs _ w file).symm.trans h)⟩

section Example

/-- A project `/p` with a module in a directory, and modules beside the project. -/
def besides : Workspace where
  tree := ⟨[([text "p"], .directory), ([text "p", text "lib"], .directory),
    ([text "p", text "lib", text "nav.ts"], .file []), ([text "p.ts"], .file []),
    ([text "outside.ts"], .file [])]⟩
  directory := Path.ofText (text "/")

/-- The resolver of the project. -/
def besidesProject : Resolver := ofProject besides (Path.ofText (text "p")) []

theorem not_below_of_not_prefix {w dir p : Path} (h : ¬ dir.parts <+: (Path.resolve w p).parts) :
    ¬ Path.Below w dir p := fun ⟨more, _, heq⟩ => h ⟨more, by rw [heq]⟩

/-- Modules beside the project are found by a way up, by a slash in front, and by nothing at all. -/
theorem resolve_outside :
    let found := fun wanted => besidesProject.resolve besides (Path.ofText (text "p/a.ts")) wanted
    let isBelow := Path.Below besides.directory besidesProject.root
    let above := Path.ofText (text "/p/../outside.ts")
    let outside := Path.ofText (text "/outside.ts")
    let sibling := Path.ofText (text "/p.ts")
    found (text "@/../outside") = .ok (some above) ∧ ¬ isBelow above ∧
    found (text "@//outside") = .ok (some outside) ∧ ¬ isBelow outside ∧
    found (text "@/") = .ok (some sibling) ∧ ¬ isBelow sibling :=
  ⟨rfl, not_below_of_not_prefix (by decide), rfl, not_below_of_not_prefix (by decide), rfl,
    not_below_of_not_prefix (by decide)⟩

/-- A way up inside the project is no matter. -/
theorem resolve_below_lib :
    let found := Path.ofText (text "/p/lib/../lib/nav.ts")
    besides.directory.WellFormed ∧ besides.directory.anchor ≠ .here ∧
    (Path.ofText (text "p")).WellFormed ∧
    besidesProject.resolve besides (Path.ofText (text "p/a.ts")) (text "@/" ++ text "lib/../lib/nav") =
      .ok (some found) ∧
    Path.Below besides.directory besidesProject.root found := by
  have hw : besides.directory.WellFormed := Path.wellFormed_ofText _
  have ha : besides.directory.anchor ≠ .here := by decide
  have hroot : (Path.ofText (text "p")).WellFormed := Path.wellFormed_ofText _
  have hfound : besidesProject.resolve besides (Path.ofText (text "p/a.ts"))
      (text "@/" ++ text "lib/../lib/nav") = .ok (some (Path.ofText (text "/p/lib/../lib/nav.ts"))) := rfl
  have hcontained : Contained (Path.ofText (text "lib/../lib/nav")) :=
    ⟨by decide, by decide, by decide⟩
  exact ⟨hw, ha, hroot, hfound, (resolve_below hw ha hroot hfound).1 hcontained⟩

end Example

end Resolver

end KeyTrace
