/-
What an analysis comes to when looking for a module fails.

Where there is no text for a module, what is imported from it is dynamic. If a module that the search
fails for counted as one without a text, every analysis would return. It does not: an analysis asks for
modules one after another and fails with the first of them that the search fails for.
-/
import KeyTrace.Proofs.Analysis.Escapes
import KeyTrace.Proofs.Analysis.Requests
import KeyTrace.Proofs.Files.Failures

namespace KeyTrace

namespace Importer

/-- What asking for a module fails with, if it does. -/
def failure? (i : Importer) (module : Text) : Option Failure :=
  match (i module).text with
  | .error e => some e
  | .ok _ => none

/-- The importer that has no text where another fails. -/
def lenient (i : Importer) : Importer := fun module =>
  match (i module).text with
  | .error _ => ⟨(i module).search, .ok none⟩
  | .ok _ => i module

/-- A run returns if failing modules count as modules without a text. With the importer as it is,
the run fails with the first failing module that it asks for then, and returns the same if there is
none. -/
def StopsAtFirst {α : Type} (i : Importer) (run : Importer → Traced α) : Prop :=
  ∃ a, (run i.lenient).outcome = .ok a ∧
    (run i).outcome =
      match (run i.lenient).requests.findSome? i.failure? with
      | some e => .error e
      | none => .ok a

variable {i : Importer} {module : Text} {e : Failure}

theorem failure?_eq_some_iff : i.failure? module = some e ↔ (i module).text = .error e := by
  rw [failure?]
  cases (i module).text <;> simp

theorem failure?_eq_none_iff : i.failure? module = none ↔ i.lenient module = i module := by
  rw [failure?, lenient]
  cases h : (i module).text with
  | error e =>
    refine iff_of_false nofun fun heq => ?_
    rw [← heq] at h
    cases h
  | ok t => exact iff_of_true rfl rfl

theorem text_lenient_ok (i : Importer) (module : Text) : ∃ t, (i.lenient module).text = .ok t := by
  rw [lenient]
  cases h : (i module).text with
  | error e => exact ⟨none, rfl⟩
  | ok t => exact ⟨t, h⟩

/-- A run that fails only as its importer does, and that asks for modules one by one, stops at the
first failing one. -/
theorem stopsAtFirst {α : Type} {allowed : Text → Prop} {run : Importer → Traced α}
    (hblames : (run i.lenient).Blames (some i.lenient))
    (hguided : Traced.Guided allowed (some i.lenient) (some i) (run i.lenient) (run i)) :
    i.StopsAtFirst run := by
  cases hrun : (run i.lenient).outcome with
  | error e =>
    obtain ⟨_, ⟨⟩, module, he⟩ := hblames e hrun
    obtain ⟨t, ht⟩ := text_lenient_ok i module
    rw [he] at ht
    cases ht
  | ok a =>
    refine ⟨a, hrun, ?_⟩
    have hsame {module : Text} (h : i.failure? module = none) :
        Importer.text? (some i.lenient) module = Importer.text? (some i) module :=
      congrArg (fun answer : Answer => some answer.text) (failure?_eq_none_iff.1 h)
    cases hfirst : (run i.lenient).requests.findSome? i.failure? with
    | none =>
      have hall := List.findSome?_eq_none_iff.1 hfirst
      exact (hguided.same fun m hm => hsame (hall m hm)).1.symm.trans hrun
    | some e =>
      obtain ⟨before, m, after, hrequests, hm, hbefore⟩ := List.findSome?_eq_some_iff.1 hfirst
      exact hguided.stops hrequests (fun s hs => hsame (hbefore s hs))
        (congrArg some (failure?_eq_some_iff.1 hm))

end Importer

theorem Fold.constant_missing {ctx : Context} {i : Importer} {n a : Node} {im : Import}
    (hi : ctx.importer = some i) (hn : unwrapOf (some n) = some a) (ha : a.shape = .identifier)
    (him : ctx.lookup (a.text ctx.source) = some (.imported im)) (ht : (i im.module).text = .ok none)
    (depth : Int) : (constant ctx depth (some n)).outcome = .ok .dynamic := by
  have himport (constantIn : Context → Option Node → Traced Folded) :
      (foldImport constantIn ctx.importer im).outcome = .ok .dynamic := by
    rw [hi]
    unfold foldImport
    cases im.name with
    | none => rfl
    | some name =>
      dsimp only
      split
      · rfl
      · exact Traced.bind_ok_iff.2 ⟨none, ht, rfl⟩
  rw [constant]
  cases budget depth with
  | zero => rfl
  | succ b =>
    rw [folder, Folder.next]
    dsimp only
    rw [hn]
    dsimp only
    rw [foldShape, ha]
    dsimp only
    rw [foldName, him]
    exact himport _

/-- **An analysis fails just if looking for a module does.** Looking for a module fails just if its
name is relative and has no form in the file system, or if a path that is tried for it is too long;
that a file cannot be read is no failure. An analysis fails with the first failing module that it
would ask for if failing modules counted as missing, and returns if there is none; and what is
imported from a module without a text is dynamic. -/
theorem Program.discover_failures (r : Resolver) (w : Workspace) (file : Path) (code label : Text)
    (m : Fallback) (delimiter : Text) :
    let importer := r.importer w file
    (∀ wanted, ((∃ e, r.resolve w file wanted = .error e) ↔
        Resolver.Formless file wanted ∨ ∃ bases, r.StandsFor w.directory file wanted bases ∧
          ∃ before p after, bases.flatMap Resolver.candidatesAt = before ++ p :: after ∧
            (∀ b ∈ before, w.isFile b = .ok false) ∧ w.TooLong p) ∧
      ∀ e, (importer wanted).text = .error e ↔ r.resolve w file wanted = .error e) ∧
    importer.StopsAtFirst (fun i => Accessor.discover code label (some i)) ∧
    importer.StopsAtFirst (fun i => Usage.discover code m (some i) delimiter label) ∧
    ∀ (i : Importer) (ctx : Fold.Context) (n a : Node) (im : Import) (depth : Int),
      ctx.importer = some i → unwrapOf (some n) = some a → a.shape = .identifier →
      ctx.lookup (a.text ctx.source) = some (.imported im) → (i im.module).text = .ok none →
      (Fold.constant ctx depth (some n)).outcome = .ok .dynamic := by
  intro importer
  refine ⟨fun wanted => ⟨Resolver.resolve_error_iff, Resolver.text_importer_error_iff⟩, ?_, ?_,
    fun i ctx n a im depth hi hn ha him ht => Fold.constant_missing hi hn ha him ht depth⟩
  · exact Importer.stopsAtFirst (Accessor.discover_blames code label _)
      (Accessor.discover_guided (i := some importer.lenient) (j := some importer) rfl code label)
  · exact Importer.stopsAtFirst (Usage.discover_blames code m _ delimiter label)
      (Usage.discover_guided (i := some importer.lenient) (j := some importer) rfl code m delimiter
        label)

section Example

/-- A program that names the namespace of a variable in a module whose name is a null character. -/
def nullImporting : Text :=
  text "import \x7bx\x7d from './\\0';\nconst t=useTranslations(x);\nt('k');\n"

/-- An empty project. -/
def emptyProject : Workspace := ⟨FileTree.empty, ⟨.root, []⟩⟩

/-- The importer of a file `a.ts` in the project. -/
def emptyImporter : Importer :=
  (Resolver.ofProject emptyProject ⟨.here, []⟩ []).importer emptyProject ⟨.here, [text "a.ts"]⟩

/-- The import aborts both analyses; a module that is only missing leaves the namespace dynamic. -/
theorem Program.discover_nullImport :
    (emptyImporter (text "./\x00")).text = .error .nullInPath ∧
    (Accessor.discover nullImporting [] (some emptyImporter)).outcome = .error .nullInPath ∧
    (Usage.discover nullImporting [] (some emptyImporter) Usage.defaultDelimiter []).outcome =
      .error .nullInPath ∧
    (emptyImporter (text "./x")).text = .ok none ∧
    (Usage.discover nullImporting [] (some emptyImporter.lenient) Usage.defaultDelimiter []).outcome =
      .ok [] := by
  decide +kernel

/-- The name `x` in the last statement of `missingImport`. -/
def missingName : Node := .mk .none .identifier ⟨23, 24⟩ []

/-- The program `import {x} from './x'; x;`. -/
def missingImport : Program where
  source := ⟨(Utf8.encode (text "import {x} from './x'; x;")).toArray⟩
  root := .mk .none .program ⟨0, 25⟩
    [.mk .none (.importStatement false) ⟨0, 22⟩
      [.mk .none .importClause ⟨7, 10⟩
        [.mk .none .namedImports ⟨7, 10⟩
          [.mk .none (.importSpecifier false) ⟨8, 9⟩ [.mk .name .identifier ⟨8, 9⟩ []]]],
        .mk .source .string ⟨16, 21⟩ [.mk .none .stringFragment ⟨17, 20⟩ []]],
      .mk .none .otherStatement ⟨23, 25⟩ [missingName]]

/-- The module is not there, and the name that is imported from it is dynamic. -/
theorem Program.discover_failures_missingImport : ∃ w im,
    (Accessor.Workplace.ofProgram missingImport (some emptyImporter) []).outcome = .ok w ∧
    w.scopes.resolve ScopeTree.programScope (missingName.text w.source) = some (.imported im) ∧
    (emptyImporter im.module).text = .ok none ∧
    (Fold.constant (w.context ScopeTree.programScope) 0 (some missingName)).outcome =
      .ok .dynamic := by
  obtain ⟨w, im, hw, hi, hx, hmissing⟩ : ∃ w im,
      (Accessor.Workplace.ofProgram missingImport (some emptyImporter) []).outcome = .ok w ∧
      w.importer = some emptyImporter ∧
      w.scopes.resolve ScopeTree.programScope (missingName.text w.source) = some (.imported im) ∧
      (emptyImporter im.module).text = .ok none := ⟨_, _, rfl, rfl, rfl, rfl⟩
  obtain ⟨-, -, -, hdynamic⟩ := discover_failures (.ofProject emptyProject ⟨.here, []⟩ [])
    emptyProject ⟨.here, [text "a.ts"]⟩ missingImport.source.text [] [] Usage.defaultDelimiter
  exact ⟨w, im, hw, hx, hmissing, hdynamic emptyImporter (w.context ScopeTree.programScope)
    missingName missingName im 0 hi rfl rfl hx hmissing⟩

end Example

end KeyTrace
