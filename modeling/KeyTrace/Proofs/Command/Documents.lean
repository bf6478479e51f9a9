/-
What a scan leaves on the output if its findings are printed as JSON (`main_json`): a
word about every source that is no text, and then one document with the records of the
others, in order. So on a terminal of any width but none the output is a document exactly
if every source is a text.
-/
import KeyTrace.Proofs.Command.Printing
import KeyTrace.Proofs.Output.RoundTrip
import KeyTrace.Proofs.Text.Wrap

namespace KeyTrace.Command

namespace Setting

variable {α : Type}

section Sources

/-- The sources that a scan of some paths comes to, in order. -/
def scanned (s : Setting) (rule : SourceRule) : List Path → Except Failure (List Path)
  | [] => return []
  | p :: ps => do return (← rule.expand s.workspace p) ++ (← s.scanned rule ps)

/-- The sources that are texts, with their texts. -/
def readable (s : Setting) (files : List Path) : List (Path × Text) :=
  files.filterMap fun p => (s.workspace.readText? p).map fun code => (p, code)

/-- The sources that are no texts. -/
def unreadable (s : Setting) (files : List Path) : List Path :=
  files.filter fun p => (s.workspace.readText? p).isNone

/-- How the word about a source that is passed over begins, with its style tags. -/
abbrev noticeStart : Text := text "[yellow]Skipping unreadable file:[/yellow] "

/-- The word about a source that is passed over. -/
def notice (s : Setting) (p : Path) : Text :=
  s.terminal.printLine
    (Markup.shown (s.terminal.sanitize (noticeStart ++ Markup.escape p.toText)))

/-- What is found in one source. -/
def findings (reading : Reading α) (root : Path) (f : Path × Text) :
    Except Failure (List (InFile α)) :=
  (reading f.1 f.2).outcome.map
    (·.map (InFile.mk · ((f.1.relativeTo? root).getD f.1).toText))

theorem readable_append (s : Setting) (files files' : List Path) :
    s.readable (files ++ files') = s.readable files ++ s.readable files' :=
  List.filterMap_append

theorem unreadable_append (s : Setting) (files files' : List Path) :
    s.unreadable (files ++ files') = s.unreadable files ++ s.unreadable files' :=
  List.filter_append ..

end Sources

section Notices

/-- A line starts with the first character of its text, if that has one cell, is not white space
and is shown as it is. -/
theorem printLine_head? (terminal : Terminal) (hw : 0 < terminal.width) {c : CodePoint}
    (hc : cellWidth c = 1) (hb : isBlank c = false) (hshown : Terminal.standIns.lookup c = none)
    (hkept : Terminal.isDropped c = false) (t : Text) :
    (terminal.printLine (c :: t)).head? = some c := by
  obtain ⟨t', ht'⟩ : ∃ t', Terminal.withoutControls (terminal.sanitize (c :: t)) = c :: t' := by
    unfold Terminal.sanitize
    split
    · exact ⟨_, by simp [Terminal.withoutControls, hkept]; rfl⟩
    · exact ⟨_, by simp [Terminal.withoutControls, hshown, hkept]; rfl⟩
  have hhead := Wrap.head?_lay hw hc hb t'
  rw [Terminal.printLine, Terminal.print, List.map_singleton, Text.join, ht', List.head?_append,
    hhead]
  rfl

theorem sanitize_noticeStart (terminal : Terminal) (t : Text) :
    ∃ t', terminal.sanitize (noticeStart ++ t) = noticeStart ++ t' := by
  unfold Terminal.sanitize
  split
  · exact ⟨t, rfl⟩
  · rw [List.flatMap_append]
    exact ⟨_, rfl⟩

theorem pieces_noticeStart (t : Text) :
    ∃ ps, Markup.pieces (noticeStart ++ t) = .tag 0 (text "[yellow]") :: .plain 83 :: ps :=
  ⟨_, rfl⟩

theorem shown_noticeStart (t : Text) : (Markup.shown (noticeStart ++ t)).head? = some 83 := by
  obtain ⟨ps, hps⟩ := pieces_noticeStart t
  have htag : (noticeStart ++ t).contains Markup.opening = true := rfl
  rw [Markup.shown, if_pos htag, hps]
  rfl

/-- The word about a source that is passed over begins with a capital letter. -/
theorem notice_head? (s : Setting) (hw : 0 < s.terminal.width) (p : Path) :
    (s.notice p).head? = some 83 := by
  obtain ⟨t, ht⟩ := sanitize_noticeStart s.terminal (Markup.escape p.toText)
  obtain ⟨r, hr⟩ := List.head?_eq_some_iff.1 (shown_noticeStart t)
  rw [notice, ht, hr]
  exact printLine_head? s.terminal hw rfl rfl rfl rfl r

end Notices

section Runs

open Printing

variable {s : Setting} {out : Text}

/-- A run through files says a word about each that is no text, and finds what is in the others. -/
theorem readFiles_eq_ok {reading : Reading α} {root : Path} {files : List Path}
    {found : List (InFile α)} (h : s.readFiles reading root files = ⟨out, .ok found⟩) :
    out = (s.unreadable files).flatMap s.notice ∧
      ∃ lists, List.Forall₂ (fun f l => findings reading root f = .ok l) (s.readable files) lists ∧
        found = lists.flatten := by
  induction files generalizing out found with
  | nil =>
    obtain ⟨rfl, rfl⟩ := pure_eq_ok_iff.1 h
    exact ⟨rfl, [], .nil, rfl⟩
  | cons p ps ih =>
    rw [readFiles] at h
    cases hcode : s.workspace.readText? p with
    | none =>
      rw [hcode] at h
      obtain ⟨out₁, _, out₂, hsay, hrest, rfl⟩ := bind_eq_ok_iff.1 h
      obtain ⟨rfl, lists, hlists, rfl⟩ := ih hrest
      refine ⟨?_, lists, by simpa [readable, hcode] using hlists, rfl⟩
      rw [write_eq_ok hsay]
      simp [unreadable, hcode, notice]
    | some code =>
      rw [hcode] at h
      obtain ⟨out₁, found₁, _, hfound, h₁, rfl⟩ := bind_eq_ok_iff.1 h
      obtain ⟨out₂, found₂, _, hrest, h₂, rfl⟩ := bind_eq_ok_iff.1 h₁
      obtain ⟨rfl, rfl⟩ := pure_eq_ok_iff.1 h₂
      obtain ⟨rfl, houtcome⟩ := ofExcept_eq_ok_iff.1 hfound
      obtain ⟨rfl, lists, hlists, rfl⟩ := ih hrest
      refine ⟨by simp [unreadable, hcode], _ :: lists, ?_, rfl⟩
      have hfirst : s.readable (p :: ps) = (p, code) :: s.readable ps := by
        simp [readable, hcode]
      rw [hfirst]
      refine .cons ?_ hlists
      rw [findings, houtcome]
      rfl

theorem readSources_eq_ok {rule : SourceRule} {reading : Reading α} {root : Path}
    {paths : List Path} {found : List (InFile α)}
    (h : s.readSources rule reading root paths = ⟨out, .ok found⟩) :
    ∃ files, s.scanned rule paths = .ok files ∧ out = (s.unreadable files).flatMap s.notice ∧
      ∃ lists, List.Forall₂ (fun f l => findings reading root f = .ok l) (s.readable files) lists ∧
        found = lists.flatten := by
  induction paths generalizing out found with
  | nil =>
    obtain ⟨rfl, rfl⟩ := pure_eq_ok_iff.1 h
    exact ⟨[], rfl, rfl, [], .nil, rfl⟩
  | cons p ps ih =>
    rw [readSources] at h
    obtain ⟨_, files₁, _, hexpand, h₁, rfl⟩ := bind_eq_ok_iff.1 h
    obtain ⟨_, found₁, _, hfiles, h₂, rfl⟩ := bind_eq_ok_iff.1 h₁
    obtain ⟨_, found₂, _, hrest, h₃, rfl⟩ := bind_eq_ok_iff.1 h₂
    obtain ⟨rfl, rfl⟩ := pure_eq_ok_iff.1 h₃
    obtain ⟨rfl, hfiles₁⟩ := ofExcept_eq_ok_iff.1 hexpand
    obtain ⟨rfl, lists₁, hlists₁, rfl⟩ := readFiles_eq_ok hfiles
    obtain ⟨files₂, hscanned, rfl, lists₂, hlists₂, rfl⟩ := ih hrest
    refine ⟨files₁ ++ files₂, by rw [scanned, hfiles₁, hscanned]; rfl, ?_, lists₁ ++ lists₂, ?_, ?_⟩
    · simp [unreadable_append]
    · rw [readable_append]
      exact List.rel_append hlists₁ hlists₂
    · rw [List.flatten_append]

theorem checkPaths_eq_ok {paths resolved : List Path}
    (h : s.checkPaths paths = ⟨out, .ok resolved⟩) :
    out = [] ∧ resolved = paths.map (Path.resolve s.workspace.directory) := by
  induction paths generalizing out resolved with
  | nil =>
    obtain ⟨rfl, rfl⟩ := pure_eq_ok_iff.1 h
    exact ⟨rfl, rfl⟩
  | cons p ps ih =>
    rw [checkPaths] at h
    obtain ⟨_, isThere, _, hthere, h₁, rfl⟩ := bind_eq_ok_iff.1 h
    obtain ⟨rfl, -⟩ := ofExcept_eq_ok_iff.1 hthere
    split at h₁
    · obtain ⟨_, rest, _, hrest, h₂, rfl⟩ := bind_eq_ok_iff.1 h₁
      obtain ⟨rfl, rfl⟩ := pure_eq_ok_iff.1 h₂
      obtain ⟨rfl, rfl⟩ := ih hrest
      exact ⟨rfl, rfl⟩
    · obtain ⟨_, _, _, _, h₂, _⟩ := bind_eq_ok_iff.1 h₁
      cases h₂

/-- The records of one source. -/
def fileRecords (reading : Reading α) (json : InFile α → Json) (root : Path) (f : Path × Text) :
    Except Failure (List Json) := (findings reading root f).map (·.map json)

theorem run_eq_ok {scan : Scan} (hjson : scan.asJson = true) {settings : Settings} {root : Path}
    {paths : List Path} {reading : Reading α} {p : Presentation α}
    (h : s.run scan settings root paths reading p = ⟨out, .ok ()⟩) :
    ∃ files lists, s.scanned settings.sources paths = .ok files ∧
      List.Forall₂ (fun f l => fileRecords reading p.json root f = .ok l) (s.readable files) lists ∧
      out = (s.unreadable files).flatMap s.notice
        ++ (Json.render (.indented 2) 0 (.array lists.flatten) ++ [10]) := by
  obtain ⟨_, found, _, hfound, hprint, rfl⟩ := bind_eq_ok_iff.1 h
  obtain ⟨files, hscanned, rfl, lists, hlists, rfl⟩ := readSources_eq_ok hfound
  rw [present, hjson] at hprint
  refine ⟨files, lists.map (·.map p.json), hscanned, ?_, ?_⟩
  · rw [List.forall₂_map_right_iff]
    refine hlists.imp fun f l hl => ?_
    rw [fileRecords, hl]
    rfl
  · rw [write_eq_ok hprint, List.map_flatten]

/-- The records that a scan makes of one source. -/
def recordsOf (s : Setting) (settings : Settings) (scan : Scan) :
    Path × Text → Except Failure (List Json) :=
  let root := Path.resolve s.workspace.directory (scan.root.getD settings.projectRoot)
  let resolver := Resolver.ofProject s.workspace root settings.aliases
  let usual := KeyPath.delimiterOr (some settings.delimiter)
  match scan.report with
  | .keys delimiter =>
    let delimiter := match delimiter with
      | some (c :: cs) => c :: cs
      | _ => usual
    fileRecords (fun p code => linedUsages (document s.workspace resolver delimiter p code))
      Records.usageJson root
  | .namespaces =>
    fileRecords
      (fun p code => Accessor.discover code p.name (some (resolver.importer s.workspace p)))
      Records.accessorJson root
  | .scopes =>
    fileRecords
      (fun p code =>
        ifSupported (document s.workspace resolver usual p code) Editor.Document.ranges)
      Records.rangeJson root

theorem scan_eq_ok {scan : Scan} (hjson : scan.asJson = true)
    (h : s.scan scan = ⟨out, .ok ()⟩) :
    ∃ settings files lists,
      Settings.load s.workspace s.environment Settings.usualEnvFile = .ok settings ∧
      s.scanned settings.sources (scan.paths.map (Path.resolve s.workspace.directory)) = .ok files ∧
      List.Forall₂ (fun f l => s.recordsOf settings scan f = .ok l) (s.readable files) lists ∧
      out = (s.unreadable files).flatMap s.notice
        ++ (Json.render (.indented 2) 0 (.array lists.flatten) ++ [10]) := by
  obtain ⟨_, settings, _, hload, h₁, rfl⟩ := bind_eq_ok_iff.1 h
  obtain ⟨rfl, hsettings⟩ := ofExcept_eq_ok_iff.1 hload
  obtain ⟨_, paths, _, hpaths, hrun, rfl⟩ := bind_eq_ok_iff.1 h₁
  obtain ⟨rfl, rfl⟩ := checkPaths_eq_ok hpaths
  refine ⟨settings, ?_⟩
  cases hreport : scan.report with
  | keys delimiter =>
    simp only [hreport] at hrun
    obtain ⟨files, lists, hfiles, hlists, hout⟩ := run_eq_ok hjson hrun
    exact ⟨files, lists, hsettings, hfiles, by rw [recordsOf, hreport]; exact hlists, hout⟩
  | namespaces =>
    simp only [hreport] at hrun
    obtain ⟨files, lists, hfiles, hlists, hout⟩ := run_eq_ok hjson hrun
    exact ⟨files, lists, hsettings, hfiles, by rw [recordsOf, hreport]; exact hlists, hout⟩
  | scopes =>
    simp only [hreport] at hrun
    obtain ⟨files, lists, hfiles, hlists, hout⟩ := run_eq_ok hjson hrun
    exact ⟨files, lists, hsettings, hfiles, by rw [recordsOf, hreport]; exact hlists, hout⟩

end Runs

/-- The word about a source that is passed over, if there is one, spoils the document. -/
theorem read?_after_notices (s : Setting) (hw : 0 < s.terminal.width) {files : List Path}
    (hfiles : files ≠ []) (t : Text) : Json.read? (files.flatMap s.notice ++ t) = none := by
  obtain ⟨p, ps, rfl⟩ := List.exists_cons_of_ne_nil hfiles
  obtain ⟨r, hr⟩ := List.head?_eq_some_iff.1 (s.notice_head? hw p)
  rw [List.flatMap_cons, hr]
  exact Json.read?_of_isUpperLetter rfl _

/-- **What a scan prints as JSON**, if it ends well: a word about every source that is no text, and
then the one document of the records of the others, in order. If all are texts, the output reads
as that document; else it reads as none. -/
theorem main_json (s : Setting) {args : List Text} {scan : Scan}
    (hrequest : readRequest args = some (.scan scan)) (hjson : scan.asJson = true)
    (hexit : (s.main args).exitCode = 0) :
    ∃ settings files lists,
      Settings.load s.workspace s.environment Settings.usualEnvFile = .ok settings ∧
      s.scanned settings.sources (scan.paths.map (Path.resolve s.workspace.directory)) = .ok files ∧
      List.Forall₂ (fun f l => s.recordsOf settings scan f = .ok l) (s.readable files) lists ∧
      (s.main args).stdout = (s.unreadable files).flatMap s.notice
        ++ (Json.render (.indented 2) 0 (.array lists.flatten) ++ [10]) ∧
      (s.unreadable files = [] →
        Json.read? (s.main args).stdout = some (Json.asRead (.array lists.flatten)) ∧
          ((∀ t ∈ Json.texts (.array lists.flatten), Json.Unpaired t) →
            Json.asRead (.array lists.flatten) = .array lists.flatten)) ∧
      (0 < s.terminal.width → s.unreadable files ≠ [] →
        Json.read? (s.main args).stdout = none) := by
  have hmain : s.main args = (s.scan scan).ending := by rw [main, hrequest]; rfl
  rw [hmain] at hexit ⊢
  have hscan := (s.scan_failsLoudly scan).of_exitCode hexit
  obtain ⟨settings, files, lists, hload, hfiles, hlists, hout⟩ := scan_eq_ok hjson hscan
  refine ⟨settings, files, lists, hload, hfiles, hlists, hout, fun hnone => ?_, fun hw hsome => ?_⟩
  · refine ⟨?_, Json.asRead_of_unpaired _⟩
    rw [hout, hnone, List.flatMap_nil, List.nil_append]
    exact Json.read?_render _ _ _ fun c hc => List.mem_singleton.1 hc ▸ rfl
  · rw [hout]
    exact s.read?_after_notices hw hsome _

end Setting

section Examples

/-- A directory with some files, on an ordinary terminal. -/
def directoryOf (files : List (String × List UInt8)) : Setting where
  workspace :=
    ⟨files.foldl (fun tree f => tree.writeFile [text f.1] f.2) FileTree.empty, ⟨.root, []⟩⟩
  environment := []
  terminal := ⟨text "utf-8", 80⟩

/-- The command line that asks for the keys of a directory as JSON, and what it asks for. -/
def keysArgs : List Text := [text "keys", text ".", text "--json"]

def keysScan : Scan := ⟨.keys none, [⟨.here, []⟩], none, true⟩

/-- A file in which one key is looked up. -/
def oneKey : String × List UInt8 :=
  ("a.ts", (text "const t = useTranslations('home');\nt('title');\n").map Nat.toUInt8)

theorem main_json_oneKey :
    readRequest keysArgs = some (.scan keysScan) ∧ keysScan.asJson = true ∧
    ((directoryOf [oneKey]).main keysArgs).exitCode = 0 ∧
    ∃ lists, List.Forall₂ (fun f l =>
        (directoryOf [oneKey]).recordsOf (Settings.ofEnvironment []) keysScan f = .ok l)
        ((directoryOf [oneKey]).readable [⟨.root, [text "a.ts"]⟩]) lists ∧
      Json.read? ((directoryOf [oneKey]).main keysArgs).stdout
        = some (Json.asRead (.array lists.flatten)) := by
  have hexit : ((directoryOf [oneKey]).main keysArgs).exitCode = 0 := by decide +kernel
  have hload : Settings.load (directoryOf [oneKey]).workspace (directoryOf [oneKey]).environment
      Settings.usualEnvFile = .ok (Settings.ofEnvironment []) := by decide +kernel
  have hscanned : (directoryOf [oneKey]).scanned (Settings.ofEnvironment []).sources
      (keysScan.paths.map (Path.resolve (directoryOf [oneKey]).workspace.directory))
        = .ok [⟨.root, [text "a.ts"]⟩] := by decide +kernel
  have hreadable : (directoryOf [oneKey]).unreadable [⟨.root, [text "a.ts"]⟩] = [] := by
    decide +kernel
  obtain ⟨settings, files, lists, hsettings, hfiles, hlists, -, hread, -⟩ :=
    (directoryOf [oneKey]).main_json rfl rfl hexit
  obtain rfl := Except.ok.inj (hload.symm.trans hsettings)
  obtain rfl := Except.ok.inj (hscanned.symm.trans hfiles)
  exact ⟨rfl, rfl, hexit, lists, hlists, (hread hreadable).1⟩

/-- A directory with a file that is no text ends well, and leaves no document. -/
theorem main_json_noText :
    readRequest keysArgs = some (.scan keysScan) ∧ keysScan.asJson = true ∧
    ((directoryOf [("b.ts", [0xff])]).main keysArgs).exitCode = 0 ∧
    Json.read? ((directoryOf [("b.ts", [0xff])]).main keysArgs).stdout = none :=
  ⟨rfl, rfl, by decide +kernel, by decide +kernel⟩

end Examples

end KeyTrace.Command
