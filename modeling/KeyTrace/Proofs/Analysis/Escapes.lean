/-
No program that is read makes cooking fail.

Whatever is folded in a program stands in its tree or in that of a module that it
imports, and both have been read: their literals have values. What is left to fail
is the importer.
-/
import KeyTrace.Analysis.Usages
import KeyTrace.Proofs.Fold.Returning
import KeyTrace.Proofs.Grammar.Programs
import KeyTrace.Proofs.Literal.Templates
import KeyTrace.Proofs.Scope.Declared
import KeyTrace.Proofs.Syntax.Wrappers

namespace KeyTrace

namespace Program

open Literal

/-- A node below the root of a program, but for the text of a JSX attribute. -/
def Holds (p : Program) (n : Node) : Prop :=
  ∃ m ∈ p.root.preorder, n ∈ m.allChildren ∧ (n.kind = .string → ¬ m.IsAttribute)

/-- Every node of a program is as nodes of a program that has been read are. -/
def IsLegal (p : Program) : Prop := ∀ n ∈ p.root.preorder, p.Legal n

variable {p : Program} {n c : Node}

theorem Holds.mem (h : p.Holds n) : n ∈ p.root.preorder := by
  obtain ⟨m, hm, hn, -⟩ := h
  exact Place.child_mem_preorder hm hn

theorem holds_of_mem (hn : n ∈ p.root.preorder) (hk : n.kind ≠ .jsxSyntax) (hc : c ∈ n.allChildren) :
    p.Holds c := ⟨n, hn, hc, fun _ h => hk h.1⟩

theorem Holds.child (h : p.Holds n) (hk : n.kind ≠ .jsxSyntax) (hc : c ∈ n.allChildren) : p.Holds c :=
  holds_of_mem h.mem hk hc

theorem Holds.child_of_shape (h : p.Holds n) (hs : n.shape ≠ .other) (hc : c ∈ n.allChildren) :
    p.Holds c :=
  h.child (fun hk => hs (by rw [Node.shape, hk]; rfl)) hc

theorem Holds.unwrap (h : p.Holds n) {a : Node} (ha : n.unwrap? = some a) : p.Holds a :=
  (Node.unwrap?_induct (fun _ _ hs hc hn => Holds.child_of_shape hn (by rw [hs]; nofun) hc) ha h).1

theorem Holds.string (h : p.Holds n) (hp : p.IsLegal) (hk : n.kind = .string) :
    ∃ v, stringValue p.source n = .ok v := by
  obtain ⟨m, hm, hn, ha⟩ := h
  exact ((hp m hm).strings n hn hk).resolve_left (ha hk)

theorem Holds.template (h : p.Holds n) (hp : p.IsLegal) (hk : n.kind = .templateString) :
    ∃ t, Template.ofNode p.source n = .ok t := (hp n h.mem).template hk

end Program

namespace Literal.Template

theorem mem_expressions {source : Source} {n : Node} {t : Template} (h : ofNode source n = .ok t)
    {e : Option Node} (he : e ∈ t.expressions) :
    ∃ c ∈ n.allChildren, c.kind = .templateSubstitution ∧ e = c.firstChild? := by
  rw [expressions_ofNode h, substitutions, List.mem_map] at he
  obtain ⟨c, hc, rfl⟩ := he
  obtain ⟨hc, hk⟩ := List.mem_filter.1 hc
  exact ⟨c, hc, by simpa using hk, rfl⟩

end Literal.Template

namespace Fold

open Program

variable {p : Program} {ctx ctx' : Context} {n m : Option Node}

/-- Where an expression of a program is folded: variables are those of the program. -/
structure Context.Within (ctx : Context) (p : Program) : Prop where
  source : ctx.source = p.source
  declared : ∀ name d, ctx.lookup name = some (.declared d) →
    d.node ∈ p.root.preorder ∧ d.node.kind = .variableDeclarator

theorem within_alone (p : Program) : (Context.alone p.source).Within p := ⟨rfl, nofun⟩

/-- The variables in the scopes of a program are those of the program. -/
theorem within_resolve {t : ScopeTree} (ht : ScopeTree.ofProgram p = .ok t)
    (hroot : p.root.kind = .program) (importer : Option Importer) (i : ScopeId) :
    Context.Within ⟨p.source, t.resolve i, importer⟩ p where
  source := rfl
  declared := by
    intro name d hd
    obtain ⟨hmem, hvariable⟩ := ScopeTree.declared_of_resolve ht hroot hd
    exact ⟨Place.map_node_preorderOf [] p.root ▸ List.mem_map_of_mem hmem, hvariable.1⟩

theorem holds_of_part (hn : ∀ a ∈ n, p.Holds a) (h : Part p.source n m) : ∀ a ∈ m, p.Holds a := by
  have hunwrap {a : Node} (ha : unwrapOf n = some a) : p.Holds a := by
    obtain ⟨b, hb, ha⟩ := Option.bind_eq_some_iff.1 ha
    exact (hn b hb).unwrap ha
  cases h with
  | element ha hs hc =>
    rintro _ ⟨⟩
    exact (hunwrap ha).child_of_shape (by rw [hs]; nofun) (Node.mem_children hc)
  | property ho hp hk hkey hpk =>
    obtain ⟨a, ha, hs, c, hc, hu, ho⟩ := ho
    intro b hb
    have hc := (hunwrap ha).child_of_shape (by rw [hs]; nofun) (Node.mem_children hc)
    have hprop := (hc.unwrap hu).child_of_shape (by rw [ho]; nofun) (Node.mem_children hp)
    exact hprop.child (by rw [hk]; nofun) (Node.mem_of_child? hb)
  | substitution ha hs ht he =>
    obtain ⟨c, hc, hk, rfl⟩ := Literal.Template.mem_expressions ht he
    intro b hb
    exact ((hunwrap ha).child_of_shape (by rw [hs]; nofun) hc).child (by rw [hk]; nofun)
      (Node.mem_of_firstChild? hb)
  | left ha hk | right ha hk =>
    intro b hb
    exact (hunwrap ha).child (by rw [hk]; nofun) (Node.mem_of_child? hb)

theorem mem_of_exported? {name : Text} {d : Node} (h : p.exported? name = some d) :
    d ∈ p.root.preorder ∧ d.kind = .variableDeclarator := by
  obtain ⟨s, hs, hd⟩ := List.mem_flatMap.1 (List.mem_of_find?_eq_some h)
  have hs := Place.child_mem_preorder p.root.mem_preorder_self (Node.mem_children hs)
  unfold exportedDeclarators at hd
  split at hd
  · cases hd
  · split at hd
    · next b hb =>
      split at hd
      · obtain ⟨hd, hk⟩ := List.mem_filter.1 hd
        exact ⟨Place.child_mem_preorder (Place.child_mem_preorder hs (Node.mem_of_child? hb))
          (Node.mem_children hd), by simpa using hk⟩
      · cases hd
    · cases hd

/-- What a name stands for is an expression of the program or of a module. -/
theorem holds_of_follows (hp : p.IsLegal) (hw : ctx.Within p) {name : Node}
    (h : Follows ctx name ctx' m) : ∃ p', p'.IsLegal ∧ ctx'.Within p' ∧ ∀ a ∈ m, p'.Holds a := by
  have hvalue {p : Program} {d : Node} (hd : d ∈ p.root.preorder ∧ d.kind = .variableDeclarator) :
      ∀ a ∈ d.child? .value, p.Holds a := fun a ha =>
    holds_of_mem hd.1 (by rw [hd.2]; nofun) (Node.mem_of_child? ha)
  cases h with
  | declared hd => exact ⟨p, hp, hw, hvalue (hw.declared _ _ hd)⟩
  | imported _ _ _ _ _ hread hd =>
    exact ⟨_, legal_of_read hread, within_alone _, hvalue (mem_of_exported? hd)⟩

/-- Whatever folding an expression of a program comes to is an expression of a program. -/
theorem holds_of_reaches (h : Reaches ctx n ctx' m) : ∀ {p : Program}, p.IsLegal → ctx.Within p →
    (∀ a ∈ n, p.Holds a) → ∃ p', p'.IsLegal ∧ ctx'.Within p' ∧ ∀ a ∈ m, p'.Holds a := by
  induction h with
  | refl => exact fun hp hw hn => ⟨_, hp, hw, hn⟩
  | part hpart _ ih =>
    intro p hp hw hn
    rw [hw.source] at hpart
    exact ih hp hw (holds_of_part hn hpart)
  | follow _ hf _ ih =>
    intro p hp hw _
    obtain ⟨p', hp', hw', hm⟩ := holds_of_follows hp hw hf
    exact ih hp' hw' hm

/-- Every literal that folding an expression of a program comes to has a value. -/
theorem cooks_of_holds (hp : p.IsLegal) (hw : ctx.Within p) (hn : ∀ a ∈ n, p.Holds a) :
    Cooks ctx n := by
  intro ctx' m a hr ha
  obtain ⟨p', hp', hw', hm⟩ := holds_of_reaches hr hp hw hn
  obtain ⟨b, hb, ha⟩ := Option.bind_eq_some_iff.1 ha
  have ha := (hm b hb).unwrap ha
  rw [hw'.source]
  exact ⟨fun hs => ha.string hp' (Node.kind_of_shape_string hs),
    fun hs => ha.template hp' (Node.kind_of_shape_template hs)⟩

theorem cooks_of_identifier (hp : p.IsLegal) (hw : ctx.Within p) {a : Node}
    (hs : a.shape = .identifier) : Cooks ctx (some a) := by
  have hu : unwrapOf (some a) = some a := Node.unwrap?_of_shape (by rw [hs]; nofun)
  intro ctx' m b hr hb
  cases hr with
  | refl =>
    obtain rfl := Option.some.inj (hu.symm.trans hb)
    rw [hs]
    exact ⟨nofun, nofun⟩
  | part hpart => rcases hpart.shape hu with h | h | h <;> rw [hs] at h <;> cases h
  | follow _ hf hr =>
    obtain ⟨p', hp', hw', hm⟩ := holds_of_follows hp hw hf
    exact cooks_of_holds hp' hw' hm _ _ _ hr hb

/-- Folding an expression of a program fails at most as the importer does. -/
theorem constant_blames (hp : p.IsLegal) (hw : ctx.Within p) (hn : ∀ a ∈ n, p.Holds a) (depth : Int) :
    (constant ctx depth n).Blames ctx.importer :=
  (folder_blames (budget depth)).constant ctx n (cooks_of_holds hp hw hn)

end Fold

namespace Import

open Literal

variable {p : Program} {q : Place}

theorem succeeds_mapM {α β : Type} {f : α → Except InvalidEscape β} : ∀ {l : List α},
    (∀ a ∈ l, ∃ b, f a = .ok b) → ∃ bs, l.mapM f = .ok bs
  | [], _ => ⟨[], rfl⟩
  | a :: l, h => by
    obtain ⟨b, hb⟩ := h a List.mem_cons_self
    obtain ⟨bs, hbs⟩ := succeeds_mapM fun a ha => h a (List.mem_cons_of_mem _ ha)
    rw [List.mapM_cons, hb]
    exact ⟨b :: bs, by simp only [hbs]; rfl⟩

theorem ofSpecifier?_ok (hp : p.IsLegal) (hq : q.node ∈ p.root.preorder) (module : Text) :
    ∃ o, ofSpecifier? p.source module q = .ok o := by
  unfold ofSpecifier?
  split
  · exact ⟨_, rfl⟩
  · next hk =>
    split
    · exact ⟨_, rfl⟩
    · next n hn =>
      by_cases hs : n.kind = .string
      · have hk : q.node.kind = .importSpecifier false := not_not.1 hk
        obtain ⟨v, hv⟩ :=
          (Program.holds_of_mem hq (by simp [hk]) (Node.mem_of_child? hn)).string hp hs
        rw [if_pos hs, hv]
        exact ⟨_, rfl⟩
      · rw [if_neg hs]
        exact ⟨_, rfl⟩

theorem ofClausePart_ok (hp : p.IsLegal) (hq : q.node ∈ p.root.preorder) (module : Text) :
    ∃ l, ofClausePart p.source module q = .ok l := by
  unfold ofClausePart
  split
  · exact ⟨_, rfl⟩
  · exact ⟨_, rfl⟩
  · obtain ⟨l, hl⟩ := succeeds_mapM (l := q.children) (f := ofSpecifier? p.source module) fun c hc => by
      obtain ⟨n, hn, rfl⟩ := List.mem_map.1 hc
      exact ofSpecifier?_ok hp (Place.child_mem_preorder hq (Node.mem_children hn)) module
    rw [hl]
    exact ⟨_, rfl⟩
  · exact ⟨_, rfl⟩

theorem ofStatement_ok (hp : p.IsLegal) (hq : q.node ∈ p.root.preorder) :
    ∃ l, ofStatement p.source q = .ok l := by
  have hchildren {r c : Place} (hr : r.node ∈ p.root.preorder) (hc : c ∈ r.children) :
      c.node ∈ p.root.preorder := by
    obtain ⟨n, hn, rfl⟩ := List.mem_map.1 hc
    exact Place.child_mem_preorder hr (Node.mem_children hn)
  unfold ofStatement
  split
  · exact ⟨_, rfl⟩
  · next hk =>
    have hk : q.node.kind = .importStatement false := not_not.1 hk
    split
    · exact ⟨_, rfl⟩
    · next s hs =>
      have hstring := (hp _ hq).source (by rw [hk]; rfl) s (Node.mem_of_child? hs)
        (by simpa using List.find?_some hs)
      obtain ⟨v, hv⟩ :=
        (Program.holds_of_mem hq (by simp [hk]) (Node.mem_of_child? hs)).string hp hstring
      rw [hv]
      obtain ⟨l, hl⟩ := succeeds_mapM
        (l := (q.children.filter (·.node.kind = .importClause)).flatMap Place.children)
        (f := ofClausePart p.source v) fun c hc => by
          obtain ⟨r, hr, hc⟩ := List.mem_flatMap.1 hc
          exact ofClausePart_ok hp (hchildren (hchildren hq (List.mem_filter.1 hr).1) hc) v
      change ∃ r, (List.mapM (ofClausePart p.source v) _ >>= _) = Except.ok r
      rw [hl]
      exact ⟨_, rfl⟩

theorem ofProgram_ok (hp : p.IsLegal) : ∃ l, ofProgram p = .ok l := by
  obtain ⟨l, hl⟩ := succeeds_mapM (l := (Place.root p.root).children) (f := ofStatement p.source)
    fun c hc => by
      obtain ⟨n, hn, rfl⟩ := List.mem_map.1 hc
      exact ofStatement_ok hp (Place.child_mem_preorder p.root.mem_preorder_self (Node.mem_children hn))
  rw [ofProgram, hl]
  exact ⟨_, rfl⟩

end Import

namespace Accessor

open Fold (Context)

variable {p : Program} {importer : Option Importer} {label : Text} {w : Workplace}

theorem Workplace.ofProgram_ok (hp : p.IsLegal) (hroot : p.root.kind = .program)
    (importer : Option Importer) (label : Text) :
    (∃ t, ScopeTree.ofProgram p = .ok t) ∧
      ∃ w, (Workplace.ofProgram p importer label).outcome = .ok w := by
  obtain ⟨imports, hi⟩ := Import.ofProgram_ok hp
  obtain ⟨t, ht, -⟩ := ScopeTree.ofProgram_covers hi hroot
  exact ⟨⟨t, ht⟩, _, Traced.bind_ok_iff.2 ⟨t, Traced.ofCooked_ok_iff.2 ht, rfl⟩⟩

/-- A workplace of a program that has been read. -/
structure Workplace.Legal (w : Workplace) : Prop where
  program : w.program.IsLegal
  within : ∀ i, (w.context i).Within w.program

theorem Workplace.legal (hp : p.IsLegal) (hroot : p.root.kind = .program)
    (hw : (Workplace.ofProgram p importer label).outcome = .ok w) :
    w.Legal ∧ w.program = p ∧ w.importer = importer := by
  obtain ⟨t, ht, hw⟩ := Traced.bind_ok_iff.1 hw
  cases hw
  exact ⟨⟨hp, Fold.within_resolve (Traced.ofCooked_ok_iff.1 ht) hroot importer⟩, rfl, rfl⟩

theorem Workplace.mem_of_placesOf {kind : Kind} {q : Place} (h : q ∈ w.placesOf kind) :
    q.node ∈ w.program.root.preorder ∧ q.node.kind = kind := by
  obtain ⟨hq, hk⟩ := List.mem_filter.1 h
  exact ⟨Place.map_node_preorderOf [] w.program.root ▸ List.mem_map_of_mem hq, by simpa using hk⟩

theorem holds_of_callArguments {call a : Node} (hc : call ∈ p.root.preorder)
    (ha : a ∈ call.callArguments?.getD []) : p.Holds a := by
  unfold Node.callArguments? at ha
  split at ha
  · next args hargs =>
    split at ha
    · next hkind =>
      have hmem := Place.child_mem_preorder hc (Node.mem_of_child? hargs)
      exact Program.holds_of_mem hmem (by rw [hkind]; nofun) (Node.mem_children ha)
    · cases ha
  · cases ha

theorem holds_of_awaited {init : Option Node} {a : Node} (ha : (match init with
      | some n => if n.shape = .await then n.firstChild? else some n
      | none => none) = some a) (hi : ∀ a ∈ init, p.Holds a) : p.Holds a := by
  split at ha
  · split at ha
    · next n hs => exact (hi n rfl).child_of_shape (by simp [hs]) (Node.mem_of_firstChild? ha)
    · cases ha
      exact hi _ rfl
  · cases ha

theorem holds_of_call? {source : Source} {init : Option Node} {call : Node}
    (h : call? source init = some call) (hi : ∀ a ∈ init, p.Holds a) : p.Holds call := by
  unfold call? at h
  dsimp only at h
  split at h
  · next n hn =>
    split at h
    · next hs =>
      split at h
      · split at h
        · cases h
          exact holds_of_awaited hn hi
        · cases h
      · cases h
    · cases h
  · cases h

theorem resolve_blames {ctx : Context} (hp : p.IsLegal) (hw : ctx.Within p) (label : Text) (line : Nat)
    {call : Node} (hc : call ∈ p.root.preorder) :
    (Namespace.resolve ctx label line call).Blames ctx.importer := by
  unfold Namespace.resolve
  split
  · exact .pure _
  · next first rest hargs =>
    have hfirst : p.Holds first := holds_of_callArguments hc (by rw [hargs]; exact List.mem_cons_self)
    have hn : ∀ a ∈ some first, p.Holds a := by
      rintro _ ⟨⟩
      exact hfirst
    refine .bind (Fold.constant_blames hp hw hn 0) fun v _ => ?_
    split
    · exact .pure _
    · split
      · next hs =>
        have hu : unwrapOf (some first) = some first := Node.unwrap?_of_shape (by simp [hs])
        refine .bind (Fold.foldTemplate_blames (Fold.folder_blames _) (Fold.cooks_of_holds hp hw hn) hu hs)
          fun o _ => ?_
        split <;> exact .pure _
      · exact .pure _

/-- What a maker is called with is folded without a failure of its own. -/
theorem namespaceAt_blames (hw : w.Legal) {d : Place} {call : Node}
    (hd : d.node ∈ w.program.root.preorder) (hk : d.node.kind = .variableDeclarator)
    (hc : call? w.source (d.node.child? .value) = some call) :
    (w.namespaceAt d call).Blames w.importer := by
  have hcall := holds_of_call? hc fun a ha =>
    Program.holds_of_mem hd (by rw [hk]; nofun) (Node.mem_of_child? ha)
  exact resolve_blames hw.program (hw.within _) _ _ hcall.mem

theorem ofDeclarator_blames (hw : w.Legal) {d : Place} (hd : d ∈ w.placesOf .variableDeclarator) :
    (ofDeclarator w d).Blames w.importer := by
  obtain ⟨hd, hk⟩ := Workplace.mem_of_placesOf hd
  unfold ofDeclarator
  split
  · exact .pure _
  · split
    · exact .pure _
    · split
      · exact .pure _
      · next hc => exact .bind (namespaceAt_blames hw hd hk hc) fun _ _ => .pure _

theorem ofProgram_blames (hw : w.Legal) : (ofProgram w).Blames w.importer :=
  .bind (.mapM fun _ hd => ofDeclarator_blames hw hd) fun _ _ => .pure _

theorem discover_blames (code label : Text) (importer : Option Importer) :
    (discover code label importer).Blames importer := by
  obtain ⟨r, hr⟩ := Program.ofText_returns code
  refine .bind (.of_ok hr) fun o ho => ?_
  cases o with
  | none => exact .pure _
  | some p =>
    have hp := Program.legal_of_read ho
    have hroot := Program.kind_root_of_ofText ho
    obtain ⟨-, w, hw⟩ := Workplace.ofProgram_ok hp hroot importer label
    refine .bind (.of_ok hw) fun w hw => ?_
    obtain ⟨hl, -, rfl⟩ := Workplace.legal hp hroot hw
    exact ofProgram_blames hl

end Accessor

namespace Usage

open Accessor (Workplace)

variable {w : Workplace}

theorem ownNamespace_blames (hw : w.Legal) (i : ScopeId) (name : Text) :
    (ownNamespace w i name).Blames w.importer := by
  unfold ownNamespace
  split
  · next d hd =>
    obtain ⟨hd, hk⟩ := (hw.within i).declared _ _ hd
    split
    · next hc => exact .bind (Accessor.namespaceAt_blames hw hd hk hc) fun _ _ => .pure _
    · exact .pure _
  · exact .pure _

theorem namespaceOf_blames (hw : w.Legal) (fallback : Fallback) (i : ScopeId) (name : Text) :
    (namespaceOf w fallback i name).Blames w.importer := by
  refine .bind (ownNamespace_blames hw i name) fun o _ => ?_
  split <;> exact .pure _

theorem shape_of_mapCall? {source : Source} {function call : Place} {list : Node}
    (h : mapCall? source function = some (call, list)) : list.shape = .identifier := by
  unfold mapCall? at h
  repeat' split at h
  all_goals first | cases h; done | skip
  next hs =>
    cases h
    exact hs.2

theorem mappedList_blames (hw : w.Legal) (b : Option Binding) :
    (mappedList w b).Blames w.importer := by
  unfold mappedList
  split
  · split
    · next hm =>
      exact (Fold.folder_blames _).constant _ _
        (Fold.cooks_of_identifier hw.program (hw.within _) (shape_of_mapCall? hm))
    · exact .pure _
  · exact .pure _

theorem localKeys_blames (hw : w.Legal) (i : ScopeId) {argument : Node}
    (ha : w.program.Holds argument) : (localKeys w i argument).Blames w.importer := by
  refine .bind (Fold.constant_blames hw.program (hw.within i) (by rintro _ ⟨⟩; exact ha) 0)
    fun v _ => ?_
  repeat' split
  all_goals first | exact .pure _ | exact .bind (mappedList_blames hw _) fun _ _ => .pure _

theorem ofCall_blames (hw : w.Legal) (fallback : Fallback) (delimiter : Text) {call : Place}
    (hc : call ∈ w.placesOf .callExpression) : (ofCall w fallback delimiter call).Blames w.importer := by
  obtain ⟨hc, -⟩ := Workplace.mem_of_placesOf hc
  unfold ofCall
  split
  · exact .pure _
  · refine .bind (namespaceOf_blames hw _ _ _) fun ns _ => ?_
    split
    · exact .pure _
    · split
      · exact .pure _
      · next first rest hargs =>
        exact .bind (localKeys_blames hw _ (Accessor.holds_of_callArguments hc
          (by rw [hargs]; exact List.mem_cons_self))) fun _ _ => .pure _

theorem ofProgram_blames (hw : w.Legal) (fallback : Fallback) (delimiter : Text) :
    (ofProgram w fallback delimiter).Blames w.importer :=
  .bind (.mapM fun _ hc => ofCall_blames hw fallback delimiter hc) fun _ _ => .pure _

theorem discover_blames (code : Text) (fallback : Fallback) (importer : Option Importer)
    (delimiter label : Text) : (discover code fallback importer delimiter label).Blames importer := by
  obtain ⟨r, hr⟩ := Program.ofText_returns code
  refine .bind (.of_ok hr) fun o ho => ?_
  cases o with
  | none => exact .pure _
  | some p =>
    have hp := Program.legal_of_read ho
    have hroot := Program.kind_root_of_ofText ho
    obtain ⟨-, w, hw⟩ := Workplace.ofProgram_ok hp hroot importer label
    refine .bind (.of_ok hw) fun w hw => ?_
    obtain ⟨hl, -, rfl⟩ := Workplace.legal hp hroot hw
    exact ofProgram_blames hl fallback delimiter

end Usage

namespace Program

open Accessor (Workplace)

/-- **No program that is read makes cooking fail.** Cooking fails on nothing else than an escape out
of range behind an even number of backslashes; and a program that is read, with the modules it
imports, has no literal in which there is one, so that whatever fails in an analysis of it, or in
folding one of its expressions in any scope and at any depth, is the importer. -/
theorem read_cooks :
    (∀ raw, (∃ e, Literal.cook raw = .error e) ↔ Literal.MeetsOutOfRange raw) ∧
    ∀ (doc : Document) (grammars : List Text) (p : Program),
      (read doc grammars).outcome = .ok (some p) → ∀ (importer : Option Importer) (label : Text),
      (∃ t, ScopeTree.ofProgram p = .ok t) ∧
      ∃ w, (Workplace.ofProgram p importer label).outcome = .ok w ∧
        (Accessor.ofProgram w).Blames importer ∧
        (∀ fallback delimiter, (Usage.ofProgram w fallback delimiter).Blames importer) ∧
        ∀ scope depth n, p.Holds n →
          (Fold.constant (w.context scope) depth (some n)).Blames importer := by
  refine ⟨fun _ => Literal.cook_error_iff, fun doc grammars p h importer label => ?_⟩
  have hp := legal_of_read h
  have hroot := kind_root_of_read h
  obtain ⟨ht, w, hw⟩ := Workplace.ofProgram_ok hp hroot importer label
  obtain ⟨hl, rfl, rfl⟩ := Workplace.legal hp hroot hw
  refine ⟨ht, w, hw, Accessor.ofProgram_blames hl, Usage.ofProgram_blames hl,
    fun scope depth n hn => ?_⟩
  exact Fold.constant_blames hp (hl.within scope) (by rintro _ ⟨⟩; exact hn) depth

/-- A program with escapes in strings, in a template and in the name of a module. -/
def escaped : Document := .text <| text <|
  "import {k} from '\\u{6d}';const n='\\x61\\\\u{110000}';" ++
    "const t=useTranslations(n);t(`\\142${k}`)"

/-- What is looked up in `escaped` is looked up without a failure. -/
theorem read_cooks_escaped : ∃ p, (read escaped defaultGrammars).outcome = .ok (some p) ∧
    ∃ w, (Workplace.ofProgram p none []).outcome = .ok w ∧
      (Usage.ofProgram w [] Usage.defaultDelimiter).Blames none := by
  have hread : ((read escaped defaultGrammars).outcome.toOption.bind id).isSome = true := by
    decide +kernel
  obtain ⟨p, hp⟩ := Option.isSome_iff_exists.1 hread
  obtain ⟨r, hr, rfl⟩ := Option.bind_eq_some_iff.1 hp
  cases h : (read escaped defaultGrammars).outcome with
  | error e =>
    rw [h] at hr
    cases hr
  | ok r' =>
    rw [h] at hr
    cases hr
    obtain ⟨-, w, hw, -, husages, -⟩ := read_cooks.2 escaped defaultGrammars p h none []
    exact ⟨p, rfl, w, hw, husages [] Usage.defaultDelimiter⟩

end Program

end KeyTrace
