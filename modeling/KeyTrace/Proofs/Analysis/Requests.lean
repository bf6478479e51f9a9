/-
What an analysis asks an importer for.

Every request is for the module of a variable that the program itself imports by
its name: names in a program mean no other variables of modules, and in another
module no name means anything, so that no import of a module is followed. What an
importer would say to anything else is no matter.
-/
import KeyTrace.Proofs.Analysis.Fallbacks
import KeyTrace.Proofs.Fold.Requests
import KeyTrace.Proofs.Scope.Imported

namespace KeyTrace

open Traced (Guided)

/-- A text is a program that imports a variable of the module by its name. -/
def Program.TextImports (code module : Text) : Prop :=
  ∃ p, (ofText code).outcome = .ok (some p) ∧ p.ImportsByName module

variable {allowed : Text → Prop} {i j : Option Importer}

theorem Namespace.resolve_guided {ctx : Fold.Context} (hij : i.isSome = j.isSome)
    (hctx : ctx.ImportsOnly allowed) (label : Text) (line : Nat) (call : Node) :
    Guided allowed i j (resolve (ctx.withImporter i) label line call)
      (resolve (ctx.withImporter j) label line call) := by
  unfold resolve
  split
  · exact .pure _
  · refine .bind (Fold.constant_guided hij hctx _ _) fun v _ => ?_
    split
    · exact .pure _
    · split
      · refine .bind (Fold.foldTemplate_guided (Fold.constant_guided hij hctx 0) _ _) fun o _ => ?_
        split <;> exact .pure _
      · exact .pure _

namespace Accessor

/-- The workplace with another importer. -/
def Workplace.withImporter (w : Workplace) (importer : Option Importer) : Workplace :=
  { w with importer := importer }

/-- All named imports that a name means in a workplace are of modules that may be asked for. -/
def Workplace.ImportsOnly (w : Workplace) (allowed : Text → Prop) : Prop :=
  ∀ scope, (w.context scope).ImportsOnly allowed

variable {w : Workplace}

/-- What names mean in a text is imported by the text itself. -/
theorem Workplace.importsOnly {code : Text} {p : Program}
    (hp : (Program.ofText code).outcome = .ok (some p)) {t : ScopeTree}
    (ht : ScopeTree.ofProgram p = .ok t) (importer : Option Importer) (label : Text) :
    Workplace.ImportsOnly ⟨p, t, importer, label⟩ (Program.TextImports code) :=
  fun _ _ _ hb hn =>
    ⟨p, hp, ScopeTree.imported_of_resolve ht (Program.kind_root_of_ofText hp) hb hn⟩

theorem ofDeclarator_guided (hij : i.isSome = j.isSome) (hw : w.ImportsOnly allowed) (d : Place) :
    Guided allowed i j (ofDeclarator (w.withImporter i) d) (ofDeclarator (w.withImporter j) d) := by
  unfold ofDeclarator
  split
  · exact .pure _
  · split
    · exact .pure _
    · dsimp only [Workplace.source, Workplace.withImporter]
      split
      · exact .pure _
      · exact .bind (Namespace.resolve_guided hij (hw _) _ _ _) fun _ _ => .pure _

theorem ofProgram_guided (hij : i.isSome = j.isSome) (hw : w.ImportsOnly allowed) :
    Guided allowed i j (ofProgram (w.withImporter i)) (ofProgram (w.withImporter j)) :=
  .bind (.mapM fun d _ => ofDeclarator_guided hij hw d) fun _ _ => .pure _

theorem discover_guided (hij : i.isSome = j.isSome) (code label : Text) :
    Guided (Program.TextImports code) i j (discover code label i) (discover code label j) := by
  refine .bind (.of_requests_nil (Program.requests_ofText code)) fun o ho => ?_
  cases o with
  | none => exact .pure _
  | some p =>
    simp only [Workplace.ofProgram, bind_assoc, pure_bind]
    refine .bind (.ofCooked _) fun t ht => ?_
    exact ofProgram_guided (w := ⟨p, t, none, label⟩) hij
      (Workplace.importsOnly ho (Traced.ofCooked_ok_iff.1 ht) none label)

end Accessor

namespace Usage

open Accessor (Workplace)

variable {w : Workplace}

theorem ownNamespace_guided (hij : i.isSome = j.isSome) (hw : w.ImportsOnly allowed) (scope : ScopeId)
    (name : Text) :
    Guided allowed i j (ownNamespace (w.withImporter i) scope name)
      (ownNamespace (w.withImporter j) scope name) := by
  unfold ownNamespace
  dsimp only [Workplace.source, Workplace.withImporter]
  split
  · split
    · exact .bind (Namespace.resolve_guided hij (hw _) _ _ _) fun _ _ => .pure _
    · exact .pure _
  · exact .pure _

theorem mappedList_guided (hij : i.isSome = j.isSome) (hw : w.ImportsOnly allowed)
    (b : Option Binding) :
    Guided allowed i j (mappedList (w.withImporter i) b) (mappedList (w.withImporter j) b) := by
  unfold mappedList
  split
  · dsimp only [Workplace.source, Workplace.withImporter]
    split
    · exact Fold.constant_guided hij (hw _) _ _
    · exact .pure _
  · exact .pure _

theorem localKeys_guided (hij : i.isSome = j.isSome) (hw : w.ImportsOnly allowed) (scope : ScopeId)
    (argument : Node) :
    Guided allowed i j (localKeys (w.withImporter i) scope argument)
      (localKeys (w.withImporter j) scope argument) := by
  refine .bind (Fold.constant_guided hij (hw scope) _ _) fun v _ => ?_
  split
  · exact .pure _
  · split
    · exact .pure _
    · split
      · exact .bind (mappedList_guided hij hw _) fun _ _ => .pure _
      · split
        · split
          · exact .bind (mappedList_guided hij hw _) fun _ _ => .pure _
          · exact .pure _
        · exact .pure _
      · exact .pure _

theorem ofCall_guided (hij : i.isSome = j.isSome) (hw : w.ImportsOnly allowed) (m : Fallback)
    (delimiter : Text) (call : Place) :
    Guided allowed i j (ofCall (w.withImporter i) m delimiter call)
      (ofCall (w.withImporter j) m delimiter call) := by
  cases hv : lookupVariable? w.source call.node with
  | none =>
    unfold ofCall
    simp only [Workplace.source, Workplace.withImporter] at hv ⊢
    rw [hv]
    exact .pure _
  | some name =>
    rw [ofCall_eq (w := w.withImporter i) m hv, ofCall_eq (w := w.withImporter j) m hv]
    refine .bind (ownNamespace_guided hij hw _ _) fun own _ => ?_
    split
    · exact .pure _
    · unfold through
      split
      · exact .pure _
      · exact .bind (localKeys_guided hij hw _ _) fun _ _ => .pure _

theorem ofProgram_guided (hij : i.isSome = j.isSome) (hw : w.ImportsOnly allowed) (m : Fallback)
    (delimiter : Text) :
    Guided allowed i j (ofProgram (w.withImporter i) m delimiter)
      (ofProgram (w.withImporter j) m delimiter) :=
  .bind (.mapM fun call _ => ofCall_guided hij hw m delimiter call) fun _ _ => .pure _

theorem discover_guided (hij : i.isSome = j.isSome) (code : Text) (m : Fallback)
    (delimiter label : Text) :
    Guided (Program.TextImports code) i j (discover code m i delimiter label)
      (discover code m j delimiter label) := by
  refine .bind (.of_requests_nil (Program.requests_ofText code)) fun o ho => ?_
  cases o with
  | none => exact .pure _
  | some p =>
    simp only [Workplace.ofProgram, bind_assoc, pure_bind]
    refine .bind (.ofCooked _) fun t ht => ?_
    exact ofProgram_guided (w := ⟨p, t, none, label⟩) hij
      (Workplace.importsOnly ho (Traced.ofCooked_ok_iff.1 ht) none label) m delimiter

end Usage

namespace Program

/-- **Modules are resolved one level deep.** Whatever either analysis of a text asks an importer for
is the module of a variable that a statement at the top of the text imports by its name; folding in
a module on its own asks for nothing; and another importer that says the same to what the first one
is asked for is asked for the same, and leads to the same accessors and usages. -/
theorem discover_requests (code label : Text) (importer : Importer) (m : Fallback)
    (delimiter : Text) :
    let accessors := fun i : Importer => Accessor.discover code label (some i)
    let usages := fun i : Importer => Usage.discover code m (some i) delimiter label
    (∀ s ∈ (accessors importer).requests ++ (usages importer).requests, TextImports code s) ∧
    (∀ source depth n, (Fold.constant (.alone source) depth n).requests = []) ∧
    ∀ other : Importer,
      ((∀ s ∈ (accessors importer).requests, (importer s).text = (other s).text) →
        (accessors importer).outcome = (accessors other).outcome ∧
          (accessors importer).requests = (accessors other).requests) ∧
      ((∀ s ∈ (usages importer).requests, (importer s).text = (other s).text) →
        (usages importer).outcome = (usages other).outcome ∧
          (usages importer).requests = (usages other).requests) := by
  intro accessors usages
  have haccessors (other : Importer) :
      Guided (TextImports code) (some importer) (some other) (accessors importer) (accessors other) :=
    Accessor.discover_guided (i := some importer) (j := some other) rfl code label
  have husages (other : Importer) :
      Guided (TextImports code) (some importer) (some other) (usages importer) (usages other) :=
    Usage.discover_guided (i := some importer) (j := some other) rfl code m delimiter label
  refine ⟨fun s hs => ?_, Fold.requests_constant_alone, fun other => ⟨fun h => ?_, fun h => ?_⟩⟩
  · exact (List.mem_append.1 hs).elim ((haccessors importer).allowed s)
      ((husages importer).allowed s)
  · exact (haccessors other).same fun s hs => congrArg some (h s hs)
  · exact (husages other).same fun s hs => congrArg some (h s hs)

/-- A program that imports a namespace by its name, and by default what it takes for a key. -/
def importing : Text :=
  text "import \x7ba\x7d from './a';import b from './b';const t=useTranslations(a);t(b);t('k')"

/-- The module `./a`, which imports another. -/
def nestedModule : Text × Option Text :=
  (text "./a", some (text "import \x7bc\x7d from './c';export const d=c,a='x'"))

/-- An importer that has only the module `./a` will do for `importing`. -/
theorem discover_requests_importing :
    let importer := Importer.ofList [nestedModule, (text "./b", some []), (text "./c", some [])]
    let usages := fun i : Importer =>
      Usage.discover importing [] (some i) Usage.defaultDelimiter []
    (usages importer).requests = [text "./a", text "./a"] ∧ TextImports importing (text "./a") ∧
      (∀ s ∈ (usages importer).requests,
        (importer s).text = (Importer.ofList [nestedModule] s).text) ∧
      (usages importer).outcome = (usages (Importer.ofList [nestedModule])).outcome ∧
      (usages importer).outcome.toOption.map (List.map Usage.key) = some [text "x.k"] := by
  intro importer usages
  have hevaluated : (usages importer).requests = [text "./a", text "./a"] ∧
      (usages importer).outcome.toOption.map (List.map Usage.key) = some [text "x.k"] := by
    decide +kernel
  obtain ⟨hrequests, hkeys⟩ := hevaluated
  have hsame : ∀ s ∈ (usages importer).requests,
      (importer s).text = (Importer.ofList [nestedModule] s).text := by
    rw [hrequests]
    decide +kernel
  obtain ⟨hallowed, -, hother⟩ :=
    discover_requests importing [] importer [] Usage.defaultDelimiter
  have ha : text "./a" ∈ (usages importer).requests := by simp [hrequests]
  exact ⟨hrequests, hallowed _ (List.mem_append_right _ ha), hsame, ((hother _).2 hsame).1, hkeys⟩

end Program
end KeyTrace
