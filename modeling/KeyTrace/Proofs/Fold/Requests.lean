/-
What folding asks an importer for.

`Guided` compares a computation with another that has a second importer in place
of the first: all that the first asks for is allowed, and as long as the importers
agree on what it asks for, the second asks for the same and comes to the same. It
is kept by each step of folding. In a module on its own nothing is allowed, so
that folding there asks for nothing.
-/
import KeyTrace.Output.Log
import KeyTrace.Proofs.Analysis.Outcomes
import KeyTrace.Proofs.Fold.Reach

namespace KeyTrace

/-- What an importer, if there is one, answers to an import string. -/
def Importer.text? (importer : Option Importer) (module : Text) :
    Option (Except Failure (Option Text)) :=
  importer.map fun i => (i module).text

namespace Traced

variable {α β : Type}

/-- The import strings that a computation asks for. -/
def requests (x : Traced α) : List Text := requestedModules x.log

@[simp] theorem requests_request (importer : Importer) (module : Text) :
    (importer.request module).requests = [module] := rfl

theorem requests_bind_of_ok {x : Traced α} {a : α} (h : x.outcome = .ok a) (f : α → Traced β) :
    (x >>= f).requests = x.requests ++ (f a).requests := by
  rw [bind_of_ok h]
  exact List.filterMap_append

theorem requests_bind_of_error {x : Traced α} {e : Failure} (h : x.outcome = .error e)
    (f : α → Traced β) : (x >>= f).requests = x.requests := by
  rw [bind_of_error h]
  rfl

theorem requests_bind_eq_nil {x : Traced α} {f : α → Traced β} (hx : x.requests = [])
    (hf : ∀ a, (f a).requests = []) : (x >>= f).requests = [] := by
  cases h : x.outcome with
  | error e => rw [requests_bind_of_error h, hx]
  | ok a => rw [requests_bind_of_ok h, hx, hf a, List.append_nil]

/-- All that the first computation asks for is allowed, and if what the importers answer to that is
the same, so are the computations, up to what searching for modules says. If the second importer
fails where the answers first differ, the second computation fails with it. -/
structure Guided (allowed : Text → Prop) (i j : Option Importer) (x y : Traced α) : Prop where
  allowed : ∀ m ∈ x.requests, allowed m
  same : (∀ m ∈ x.requests, Importer.text? i m = Importer.text? j m) →
    x.outcome = y.outcome ∧ x.requests = y.requests
  stops : ∀ {before : List Text} {m : Text} {after : List Text} {f : Failure},
    x.requests = before ++ m :: after → (∀ s ∈ before, Importer.text? i s = Importer.text? j s) →
    Importer.text? j m = some (.error f) → y.outcome = .error f

namespace Guided

variable {allowed : Text → Prop} {i j : Option Importer} {x y : Traced α}

/-- A computation that asks for nothing is guided by any importers. -/
theorem of_requests_nil (h : x.requests = []) : Guided allowed i j x x :=
  ⟨by simp [h], fun _ => ⟨rfl, rfl⟩, by simp [h]⟩

theorem pure (a : α) : Guided allowed i j (Pure.pure a) (Pure.pure a) := .of_requests_nil rfl

theorem ofCooked (x : Except Literal.InvalidEscape α) :
    Guided allowed i j (Traced.ofCooked x) (Traced.ofCooked x) := .of_requests_nil rfl

theorem bind {f g : α → Traced β} (h : Guided allowed i j x y)
    (hf : ∀ a, x.outcome = .ok a → Guided allowed i j (f a) (g a)) :
    Guided allowed i j (x >>= f) (y >>= g) := by
  cases hx : x.outcome with
  | error e =>
    refine ⟨by rw [requests_bind_of_error hx]; exact h.allowed, fun hm => ?_, fun hsplit hb hf => ?_⟩
    · rw [requests_bind_of_error hx] at hm ⊢
      obtain ⟨ho, hr⟩ := h.same hm
      rw [requests_bind_of_error (ho.symm.trans hx), bind_of_error hx,
        bind_of_error (ho.symm.trans hx)]
      exact ⟨rfl, hr⟩
    · rw [requests_bind_of_error hx] at hsplit
      rw [bind_of_error (h.stops hsplit hb hf)]
  | ok a =>
    have hfa := hf a hx
    refine ⟨fun m hm => ?_, fun hm => ?_, fun {before m after e} hsplit hb he => ?_⟩
    · rw [requests_bind_of_ok hx] at hm
      exact (List.mem_append.1 hm).elim (h.allowed m) (hfa.allowed m)
    · rw [requests_bind_of_ok hx] at hm ⊢
      obtain ⟨ho, hr⟩ := h.same fun m h => hm m (List.mem_append_left _ h)
      obtain ⟨ho', hr'⟩ := hfa.same fun m h => hm m (List.mem_append_right _ h)
      rw [requests_bind_of_ok (ho.symm.trans hx), bind_of_ok hx, bind_of_ok (ho.symm.trans hx), hr,
        hr']
      exact ⟨ho', rfl⟩
    · rw [requests_bind_of_ok hx] at hsplit
      obtain ⟨before', rfl, hrest⟩ | ⟨after', hfirst, hafter⟩ := List.append_eq_append_iff.1 hsplit
      · -- the first computation is done, and what it asks for is answered alike
        obtain ⟨ho, -⟩ := h.same fun s hs => hb s (List.mem_append_left _ hs)
        rw [bind_of_ok (ho.symm.trans hx)]
        exact hfa.stops hrest (fun s hs => hb s (List.mem_append_right _ hs)) he
      -- The failing module is the first that the rest asks for, or the first computation fails with it.
      · cases after' with
        | nil =>
          rw [List.append_nil] at hfirst
          obtain ⟨ho, -⟩ := h.same (hfirst ▸ hb)
          rw [bind_of_ok (ho.symm.trans hx)]
          have hrest : (f a).requests = [] ++ m :: after := hafter.symm
          exact hfa.stops hrest nofun he
        | cons m' after' =>
          obtain ⟨rfl, -⟩ := List.cons.inj hafter
          rw [bind_of_error (h.stops hfirst hb he)]

theorem congruence (allowed : Text → Prop) (i j : Option Importer) :
    Congruence (Guided allowed i j) := ⟨pure, bind⟩

theorem mapM {f g : α → Traced β} {l : List α} (h : ∀ a ∈ l, Guided allowed i j (f a) (g a)) :
    Guided allowed i j (l.mapM f) (l.mapM g) :=
  (congruence allowed i j).mapM (List.forall₂_same.2 h)

/-- What is allowed to no one is not asked for. -/
theorem requests_eq_nil (h : Guided (fun _ => False) i j x y) : x.requests = [] :=
  List.eq_nil_iff_forall_not_mem.2 h.allowed

end Guided
end Traced

theorem Program.requests_tryGrammars (doc : Document) (gs : List Text) :
    (tryGrammars doc gs).requests = [] := by
  induction gs with
  | nil => rfl
  | cons g gs ih =>
    rw [tryGrammars]
    split
    · rfl
    · split
      · exact ih
      · split
        · rfl
        · exact ih

/-- Reading a text asks for no module. -/
theorem Program.requests_ofText (t : Text) : (ofText t).requests = [] := by
  refine Traced.requests_bind_eq_nil (requests_tryGrammars _ _) fun o => ?_
  cases o <;> rfl

namespace Fold

open Traced (Guided)

variable {allowed : Text → Prop} {i j : Option Importer}

/-- The context with another importer. -/
def Context.withImporter (ctx : Context) (importer : Option Importer) : Context :=
  { ctx with importer := importer }

/-- All named imports of a context are of modules that may be asked for. -/
def Context.ImportsOnly (ctx : Context) (allowed : Text → Prop) : Prop :=
  ∀ name i, ctx.lookup name = some (.imported i) → i.isNamed = true → allowed i.module

theorem importsOnly_alone (source : Source) (allowed : Text → Prop) :
    (Context.alone source).ImportsOnly allowed := nofun

/-- What can be folded is guided by two importers. -/
structure Folder.Guided (allowed : Text → Prop) (i j : Option Importer) (f f' : Folder) : Prop where
  constant : ∀ n, Traced.Guided allowed i j (f.constant n) (f'.constant n)
  name : ∀ n, Traced.Guided allowed i j (f.name n) (f'.name n)

theorem foldTemplate_guided {constant constant' : Option Node → Traced Folded}
    (h : ∀ n, Guided allowed i j (constant n) (constant' n)) (source : Source) (n : Node) :
    Guided allowed i j (foldTemplate source constant n) (foldTemplate source constant' n) :=
  .bind (.ofCooked _) fun _ _ =>
    joinTemplate_related (Guided.congruence _ _ _) _ (List.forall₂_same.2 fun p _ => ⟨h p.1, rfl⟩)

section Folders

variable {f f' : Folder}

theorem propertyValue_guided (hf : Folder.Guided allowed i j f f') (p : Node) :
    Guided allowed i j (propertyValue f p) (propertyValue f' p) := by
  unfold propertyValue
  split
  · exact hf.name p
  · exact hf.constant _

theorem foldElement_guided (hf : Folder.Guided allowed i j f f') (source : Source) (e : Node) :
    Guided allowed i j (foldElement source f e) (foldElement source f' e) :=
  foldElement_related (Guided.congruence _ _ _) (hf.constant _) (Pointwise.option_same fun _ _ =>
    ⟨rfl, fun _ => foldRecord_related (Guided.congruence _ _ _) (List.forall₂_same.2 fun p _ =>
      ⟨rfl, fun _ => propertyValue_guided hf p⟩)⟩)

end Folders

theorem request_guided {importer importer' : Importer} {module : Text} (h : allowed module) :
    Guided allowed (some importer) (some importer') (importer.request module)
      (importer'.request module) where
  allowed m hm := by
    rw [Traced.requests_request, List.mem_singleton] at hm
    exact hm ▸ h
  same hm := ⟨Option.some.inj (hm module (by simp)), by simp⟩
  stops := by
    intro before m after f hsplit _ hf
    obtain ⟨-, heq⟩ | ⟨-, heq⟩ := List.singleton_eq_append_iff.1 hsplit
    · obtain ⟨rfl, -⟩ := List.cons.inj heq
      exact Option.some.inj hf
    · cases heq

/-- Folding an import asks for its module, and for nothing in there. -/
theorem foldImport_guided {constantIn : Context → Option Node → Traced Folded}
    (halone : ∀ source n, (constantIn (.alone source) n).requests = [])
    (hij : i.isSome = j.isSome) {im : Import} (him : im.isNamed = true → allowed im.module) :
    Guided allowed i j (foldImport constantIn i im) (foldImport constantIn j im) := by
  cases i with
  | none =>
    cases j with
    | none => exact .pure _
    | some => cases hij
  | some importer =>
    cases j with
    | none => cases hij
    | some importer' =>
      unfold foldImport
      cases im.name with
      | none => exact .pure _
      | some name =>
        dsimp only
        cases hn : im.isNamed with
        | false => exact .pure _
        | true =>
          refine .bind (request_guided (him hn)) fun t _ => ?_
          split
          · exact .pure _
          · exact .pure _
          · refine .bind (.of_requests_nil (Program.requests_ofText _)) fun o _ => ?_
            split
            · exact .of_requests_nil rfl
            · split
              · exact .of_requests_nil rfl
              · exact .of_requests_nil (halone _ _)

variable {ctx : Context}

/-- Folding a name asks for nothing but the module that it may be imported from. -/
theorem foldName_guided {constantIn : Context → Option Node → Traced Folded}
    (halone : ∀ source n, (constantIn (.alone source) n).requests = [])
    (hconstant : ∀ n, Guided allowed i j (constantIn (ctx.withImporter i) n)
      (constantIn (ctx.withImporter j) n))
    (hij : i.isSome = j.isSome) (hctx : ctx.ImportsOnly allowed) (n : Node) :
    Guided allowed i j (foldName constantIn (ctx.withImporter i) n)
      (foldName constantIn (ctx.withImporter j) n) := by
  unfold foldName
  dsimp only [Context.withImporter]
  split
  · next im him => exact foldImport_guided halone hij (hctx _ im him)
  · exact hconstant _
  · exact .pure _

theorem partsRelated_guided {below : Context → Folder}
    (halone : ∀ source n, ((below (.alone source)).constant n).requests = [])
    (hbelow : Folder.Guided allowed i j (below (ctx.withImporter i)) (below (ctx.withImporter j)))
    (hij : i.isSome = j.isSome) (hctx : ctx.ImportsOnly allowed) (n : Node) :
    PartsRelated (Guided allowed i j) (ctx.withImporter i) (ctx.withImporter j) below n n where
  shape := rfl
  string _ := .ofCooked _
  array _ := List.forall₂_same.2 fun c _ => foldElement_guided hbelow _ c
  identifier _ := foldName_guided halone hbelow.constant hij hctx n
  template _ := foldTemplate_guided hbelow.constant _ n
  binary _ := rfl
  left _ := hbelow.constant _
  right _ := hbelow.constant _

/-- Folding with any budget is guided by two importers. -/
theorem folder_guided (hij : i.isSome = j.isSome) (hctx : ctx.ImportsOnly allowed) (b : Nat) :
    Folder.Guided allowed i j (folder b (ctx.withImporter i)) (folder b (ctx.withImporter j)) := by
  induction b generalizing allowed i j ctx with
  | zero =>
    exact ⟨fun _ => .pure _, fun n =>
      foldName_guided (fun _ _ => rfl) (fun _ => .pure _) hij hctx n⟩
  | succ b ih =>
    have halone (source : Source) (n : Option Node) :
        ((folder b (.alone source)).constant n).requests = [] :=
      ((ih rfl (importsOnly_alone source _)).constant n).requests_eq_nil (i := none) (j := none)
    refine ⟨fun n => ?_, fun n => foldName_guided halone (ih hij hctx).constant hij hctx n⟩
    exact next_related (Guided.congruence _ _ _) (Pointwise.option_same fun a _ =>
      partsRelated_guided halone (ih hij hctx) hij hctx a)

theorem constant_guided (hij : i.isSome = j.isSome) (hctx : ctx.ImportsOnly allowed) (depth : Int)
    (n : Option Node) :
    Guided allowed i j (constant (ctx.withImporter i) depth n)
      (constant (ctx.withImporter j) depth n) :=
  (folder_guided hij hctx _).constant n

/-- In a module on its own, folding asks for nothing. -/
theorem requests_constant_alone (source : Source) (depth : Int) (n : Option Node) :
    (constant (.alone source) depth n).requests = [] := by
  have halone : (Context.alone source).ImportsOnly fun _ => False := importsOnly_alone source _
  exact (constant_guided (i := none) (j := none) rfl halone depth n).requests_eq_nil

end Fold
end KeyTrace
