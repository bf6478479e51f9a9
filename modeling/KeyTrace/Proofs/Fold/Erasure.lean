/-
Folding sees no wrappers: expressions that say the same fold to the same where names
stand for expressions that say the same, and wrappers take no depth.
-/
import KeyTrace.Proofs.Analysis.Outcomes
import KeyTrace.Proofs.Fold.Reach
import KeyTrace.Proofs.Grammar.Reading
import KeyTrace.Proofs.Literal.Templates

namespace KeyTrace

open Node (bare bareAll core coreOf shell)

namespace Fold

/-- What a name comes to where it is folded, wrappers aside. -/
inductive Meaning where
  | unknown
  /-- The value of a variable, which is folded in the same place. -/
  | declared (value : Option Bare)
  /-- The value of a variable that a module exports, if it does, which is folded there. -/
  | imported (value : Except Failure (Option (Option Bare)))

/-- The value of a variable that the text of a module exports, in its module. -/
def exportedBy (code name : Text) : Except Failure (Option (Source × Option Node)) :=
  match (Program.ofText code).outcome with
  | .error e => .error e
  | .ok none => .ok none
  | .ok (some p) => .ok ((p.exported? name).map fun d => (p.source, d.child? .value))

/-- The value of the variable that an import stands for, in its module. -/
def exportedVariable (importer : Option Importer) (i : Import) :
    Except Failure (Option (Source × Option Node)) :=
  match importer, i.name with
  | some importer, some name =>
    if !i.isNamed then .ok none
    else match (importer i.module).text with
      | .error e => .error e
      | .ok none | .ok (some []) => .ok none
      | .ok (some code) => exportedBy code name
  | _, _ => .ok none

/-- What a name comes to in a context. -/
def Context.meaning (ctx : Context) (name : Text) : Meaning :=
  match ctx.lookup name with
  | some (.declared d) => .declared (coreOf ctx.source (d.node.child? .value))
  | some (.imported i) =>
    .imported ((exportedVariable ctx.importer i).map (Option.map fun v => coreOf v.1 v.2))
  | _ => .unknown

/-- Names come to the same. -/
def Context.Alike (ctx ctx' : Context) : Prop := ∀ name, ctx.meaning name = ctx'.meaning name

theorem alike_alone (s s' : Source) : (Context.alone s).Alike (.alone s') := fun _ => rfl

theorem foldImport_outcome (constantIn : Context → Option Node → Traced Folded)
    (importer : Option Importer) (i : Import) :
    (foldImport constantIn importer i).outcome =
      (exportedVariable importer i).bind fun
        | none => .ok .dynamic
        | some (s, v) => (constantIn (.alone s) v).outcome := by
  unfold foldImport exportedVariable
  cases importer with
  | none => rfl
  | some importer =>
    cases i.name with
    | none => rfl
    | some name =>
      dsimp only
      cases i.isNamed with
      | false => rfl
      | true =>
        simp only [Bool.not_true, Bool.false_eq_true, if_false]
        cases ht : (importer i.module).text with
        | error e =>
          rw [Traced.bind_of_error ht]
          rfl
        | ok t =>
          rw [Traced.bind_of_ok ht]
          rcases t with _ | _ | ⟨c, cs⟩
          · rfl
          · rfl
          · obtain ⟨r, hr⟩ := Program.ofText_returns (c :: cs)
            dsimp only
            rw [Traced.bind_of_ok hr, exportedBy, hr]
            cases r with
            | none => rfl
            | some p =>
              dsimp only
              cases p.exported? name <;> rfl

section Erasure

variable {ctx ctx' : Context} {n n' : Option Node} {a a' : Node}

/-- What can be folded with some budget is the same for expressions that say the same. -/
structure Folder.Erases (f : Context → Folder) : Prop where
  constant : ∀ {ctx ctx' n n'}, ctx.Alike ctx' → coreOf ctx.source n = coreOf ctx'.source n' →
    ((f ctx).constant n).outcome = ((f ctx').constant n').outcome
  name : ∀ {ctx ctx' k k'}, ctx.Alike ctx' → k.text ctx.source = k'.text ctx'.source →
    ((f ctx).name k).outcome = ((f ctx').name k').outcome

variable {f : Context → Folder}

theorem property_erased (hf : Folder.Erases f) (hctx : ctx.Alike ctx') {p p' : Node}
    (hp : bare ctx.source p = bare ctx'.source p') :
    propertyName? ctx'.source p' = propertyName? ctx.source p ∧
      (propertyName? ctx.source p ≠ none →
        (propertyValue (f ctx) p).outcome = (propertyValue (f ctx') p').outcome) := by
  by_cases hs : p.kind = .shorthandPropertyIdentifier
  · obtain ⟨hs', hshell⟩ := Node.shell_of_bare rfl hs hp
    have htext := Node.text_of_shell hshell (by rw [hs]; rfl)
    simp only [propertyName?, propertyValue, hs, hs', htext, if_true, true_and]
    exact fun _ => hf.name hctx htext
  have hs' : p'.kind ≠ .shorthandPropertyIdentifier := fun h =>
    hs (Node.shell_of_bare rfl h hp.symm).1
  by_cases hk : p.kind = .pair
  · obtain ⟨hk', hshell⟩ := Node.shell_of_bare rfl hk hp
    have hparts := Node.bareAll_of_shell hshell
    have hkey := Node.map_bare_child?_eq hparts (r := .key) (by decide)
    have hvalue := Node.map_bare_child?_eq hparts (r := .value) (by decide)
    refine ⟨?_, fun _ => ?_⟩
    · simp only [propertyName?, hk, hk']
      cases hc : p.child? .key with
      | none =>
        rw [hc, Option.map_none, eq_comm, Option.map_eq_none_iff] at hkey
        rw [hkey]
      | some c =>
        rw [hc, Option.map_some, eq_comm, Option.map_eq_some_iff] at hkey
        obtain ⟨c', hc', hcc⟩ := hkey
        rw [hc']
        dsimp only
        by_cases hck : c.kind = .propertyIdentifier
        · obtain ⟨hck', hcs⟩ := Node.shell_of_bare rfl hck hcc.symm
          rw [if_pos hck, if_pos hck', Node.text_of_shell hcs (by rw [hck]; rfl)]
        · rw [if_neg hck, if_neg fun h => hck (Node.shell_of_bare rfl h hcc).1]
    · simp only [propertyValue, if_neg hs, if_neg hs']
      exact hf.constant hctx (Node.coreOf_eq_of_bare hvalue)
  · have hk' : p'.kind ≠ .pair := fun h => hk (Node.shell_of_bare rfl h hp.symm).1
    have hnone {s : Source} {q : Node} (hs : q.kind ≠ .shorthandPropertyIdentifier)
        (hk : q.kind ≠ .pair) : propertyName? s q = none := by
      unfold propertyName?
      split
      · next h => exact absurd h hs
      · next h => exact absurd h hk
      · rfl
    rw [hnone hs hk, hnone hs' hk']
    exact ⟨rfl, fun h => absurd rfl h⟩

theorem foldRecord_erased (hf : Folder.Erases f) (hctx : ctx.Alike ctx')
    (ho : shell ctx.source a = shell ctx'.source a') :
    (foldRecord ctx.source (f ctx) a).outcome = (foldRecord ctx'.source (f ctx') a').outcome :=
  foldRecord_related Traced.congruence_outcome
    ((Node.forall₂_children (Node.bareAll_of_shell ho)).imp fun _ _ hp =>
      property_erased hf hctx hp)

theorem foldElement_erased (hf : Folder.Erases f) (hctx : ctx.Alike ctx') {c c' : Node}
    (hc : bare ctx.source c = bare ctx'.source c') :
    (foldElement ctx.source (f ctx) c).outcome = (foldElement ctx'.source (f ctx') c').outcome := by
  have hcore : coreOf ctx.source (some c) = coreOf ctx'.source (some c') :=
    Node.core_eq_of_bare_eq hc
  exact foldElement_related Traced.congruence_outcome (hf.constant hctx hcore)
    (Pointwise.option_imp (fun _ _ ho => ⟨congrArg Kind.shape (Node.kind_of_shell ho).symm,
      fun _ => foldRecord_erased hf hctx ho⟩) (Node.unwrapOf_rel hcore))

theorem substitutions_erased {s s' : Source} {l l' : List Node}
    (h : bareAll s l = bareAll s' l') :
    (Literal.Template.substitutions l).map (coreOf s) =
      (Literal.Template.substitutions l').map (coreOf s') := by
  -- a substitution is not wrapped, so it says what is in it
  have hinside {s : Source} : ∀ l : List Node,
      (Literal.Template.substitutions l).map (coreOf s) =
        ((l.filter fun c => c.kind = .templateSubstitution).map (bare s)).map Node.coreInside := by
    intro l
    rw [Literal.Template.substitutions, List.map_map, List.map_map]
    refine List.map_congr_left fun c hc => ?_
    exact (Node.coreInside_bare rfl (by simpa using (List.mem_filter.1 hc).2)).symm
  rw [hinside, hinside, Node.map_bare_substitutions, Node.map_bare_substitutions, h]

/-- Templates that say the same have the same text around expressions that say the same. -/
theorem template_erased {s s' : Source} (hk : a.kind = .templateString)
    (h : shell s a = shell s' a') :
    (Literal.Template.ofNode s a).map (fun t => (t.first, t.rest.map fun p => (coreOf s p.1, p.2))) =
      (Literal.Template.ofNode s' a').map
        fun t => (t.first, t.rest.map fun p => (coreOf s' p.1, p.2)) := by
  have hshape {s : Source} {n : Node} (hn : n.kind = .templateString) :
      (Literal.Template.ofNode s n).map
          (fun t => (t.first, t.rest.map fun p => (coreOf s p.1, p.2))) =
        Literal.Template.assemble (Node.texts s n)
          ((Literal.Template.substitutions n.allChildren).map (coreOf s)) := by
    rw [Literal.Template.assemble_map, Node.texts, if_pos hn, ← Literal.Template.partsFrom_eq,
      Literal.Template.ofNode]
    cases Literal.Template.partsFrom s (n.span.stop - 1) (n.span.start + 1) n.allChildren <;> rfl
  rw [hshape hk, hshape ((Node.kind_of_shell h).symm.trans hk), Node.texts_of_shell h,
    substitutions_erased (Node.bareAll_of_shell h)]

theorem foldTemplate_erased (hf : Folder.Erases f) (hctx : ctx.Alike ctx')
    (hk : a.kind = .templateString) (h : shell ctx.source a = shell ctx'.source a') :
    (foldTemplate ctx.source (f ctx).constant a).outcome =
      (foldTemplate ctx'.source (f ctx').constant a').outcome := by
  have ht := template_erased hk h
  unfold foldTemplate
  cases hof : Literal.Template.ofNode ctx.source a with
  | error e =>
    cases hof' : Literal.Template.ofNode ctx'.source a' with
    | error e' =>
      rw [hof, hof'] at ht
      cases ht
      rfl
    | ok t' =>
      rw [hof, hof'] at ht
      cases ht
  | ok t =>
    cases hof' : Literal.Template.ofNode ctx'.source a' with
    | error e' =>
      rw [hof, hof'] at ht
      cases ht
    | ok t' =>
      rw [hof, hof'] at ht
      obtain ⟨hfirst, hrest⟩ := Prod.mk.inj (Except.ok.inj ht)
      rw [← List.forall₂_eq_eq_eq, List.forall₂_map_left_iff, List.forall₂_map_right_iff] at hrest
      change (joinTemplate (f ctx).constant t.first t.rest).outcome =
        (joinTemplate (f ctx').constant t'.first t'.rest).outcome
      rw [hfirst]
      refine joinTemplate_related Traced.congruence_outcome _ (hrest.imp fun p p' hp => ?_)
      obtain ⟨hcore, hquasi⟩ := Prod.mk.inj hp
      exact ⟨hf.constant hctx hcore, hquasi⟩

theorem foldImport_erased {constantIn : Context → Option Node → Traced Folded}
    (hc : ∀ {s s' n n'}, coreOf s n = coreOf s' n' →
      (constantIn (.alone s) n).outcome = (constantIn (.alone s') n').outcome)
    {importer importer' : Option Importer} {i i' : Import}
    (h : (exportedVariable importer i).map (Option.map fun v => coreOf v.1 v.2) =
      (exportedVariable importer' i').map (Option.map fun v => coreOf v.1 v.2)) :
    (foldImport constantIn importer i).outcome = (foldImport constantIn importer' i').outcome := by
  rw [foldImport_outcome, foldImport_outcome]
  generalize exportedVariable importer i = v at h ⊢
  generalize exportedVariable importer' i' = v' at h ⊢
  rcases v with e | _ | ⟨s, v⟩ <;> rcases v' with e' | _ | ⟨s', v'⟩ <;>
    first
    | exact hc (Option.some.inj (Except.ok.inj h))
    | (cases h; done)
    | (cases h; rfl)

theorem foldName_erased {constantIn : Context → Option Node → Traced Folded}
    (hc : ∀ {ctx ctx' n n'}, Context.Alike ctx ctx' → coreOf ctx.source n = coreOf ctx'.source n' →
      (constantIn ctx n).outcome = (constantIn ctx' n').outcome)
    (hctx : ctx.Alike ctx') (h : a.text ctx.source = a'.text ctx'.source) :
    (foldName constantIn ctx a).outcome = (foldName constantIn ctx' a').outcome := by
  have hm := hctx (a.text ctx.source)
  unfold foldName
  rw [← h]
  unfold Context.meaning at hm
  generalize ctx.lookup (a.text ctx.source) = l at hm ⊢
  generalize ctx'.lookup (a.text ctx.source) = l' at hm ⊢
  rcases l with _ | _ | _ | _ | _ <;> rcases l' with _ | _ | _ | _ | _ <;>
    first
    | rfl
    | cases hm
    | exact foldImport_erased (fun h => hc (alike_alone _ _) h) (Meaning.imported.inj hm)
    | exact hc hctx (Meaning.declared.inj hm)

theorem partsRelated_erased (hf : Folder.Erases f) (hctx : ctx.Alike ctx')
    (h : shell ctx.source a = shell ctx'.source a') :
    PartsRelated (fun x y => x.outcome = y.outcome) ctx ctx' f a a' := by
  have hparts := Node.bareAll_of_shell h
  have hside {r : Role} (hr : r ≠ .none) :
      ((f ctx).constant (a.child? r)).outcome = ((f ctx').constant (a'.child? r)).outcome :=
    hf.constant hctx (Node.coreOf_eq_of_bare (Node.map_bare_child?_eq hparts hr))
  exact {
    shape := congrArg Kind.shape (Node.kind_of_shell h).symm
    string := fun hs => by
      have ht : a.text ctx.source = a'.text ctx'.source :=
        Node.text_of_shell h (by rw [Node.kind_of_shape_string hs]; rfl)
      rw [Literal.stringValue, Literal.stringValue, ht]
    array := fun _ => (Node.forall₂_children hparts).imp fun _ _ hc => foldElement_erased hf hctx hc
    identifier := fun hs => foldName_erased hf.constant hctx
      (Node.text_of_shell h (by rw [Node.kind_of_shape_identifier hs]; rfl))
    template := fun hs => foldTemplate_erased hf hctx (Node.kind_of_shape_template hs) h
    binary := fun _ => (Node.kind_of_shell h).symm
    left := fun _ => hside (by decide)
    right := fun _ => hside (by decide) }

/-- With any budget, folding sees no wrappers. -/
theorem folder_erases : ∀ b, Folder.Erases (folder b)
  | 0 => {
    constant := fun _ _ => rfl
    name := fun hctx h => foldName_erased (fun _ _ => rfl) hctx h }
  | b + 1 => {
    constant := fun hctx h => next_related Traced.congruence_outcome
      (Pointwise.option_imp (fun _ _ ha => partsRelated_erased (folder_erases b) hctx ha)
        (Node.unwrapOf_rel h))
    name := fun hctx h => foldName_erased (folder_erases b).constant hctx h }

/-- **Folding sees no wrappers.** Expressions that say the same under their wrappers fold to the
same at every depth where every name stands for what says the same. -/
theorem constant_erased {n n' : Option Node} (hctx : ctx.Alike ctx')
    (h : coreOf ctx.source n = coreOf ctx'.source n') (depth : Int) :
    (constant ctx depth n).outcome = (constant ctx' depth n').outcome :=
  (folder_erases (budget depth)).constant hctx h

end Erasure

end Fold

end KeyTrace
