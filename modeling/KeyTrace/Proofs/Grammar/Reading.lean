/-
What reading a text comes to: there is always an answer, and the root of a tree that is
read is a program.
-/
import KeyTrace.Analysis.Reading
import KeyTrace.Proofs.Syntax.Moves

namespace KeyTrace

namespace Grammar

theorem Parser.bind_eq_some {α β : Type} {p : Parser α} {f : α → Parser β} {i : Input}
    {c c' : Cursor} {b : β} (h : (p >>= f) i c = some (b, c')) :
    ∃ a c₁, p i c = some (a, c₁) ∧ f a i c₁ = some (b, c') := by
  simp only [Bind.bind, Parser.bind] at h
  split at h
  · cases h
  · next a c₁ ha => exact ⟨a, c₁, ha, h⟩

theorem kind_of_program {sub : Sub} {i : Input} {c c' : Cursor} {n : Node}
    (h : program sub i c = some (n, c')) : n.kind = .program := by
  unfold program at h
  obtain ⟨_, _, -, h⟩ := Parser.bind_eq_some h
  obtain ⟨_, _, -, h⟩ := Parser.bind_eq_some h
  obtain ⟨_, _, -, h⟩ := Parser.bind_eq_some h
  obtain ⟨_, _, -, h⟩ := Parser.bind_eq_some h
  obtain ⟨_, _, -, h⟩ := Parser.bind_eq_some h
  cases h
  rfl

@[simp] theorem kind_attach (n : Node) (comments : List Node) : (attach n comments).kind = n.kind := by
  obtain ⟨r, k, s, cs⟩ := n
  rfl

theorem kind_of_parse {d : Dialect} {source : Source} {root : Node}
    (h : parse d source = some root) : root.kind = .program := by
  unfold parse at h
  obtain ⟨n, hn, rfl⟩ := Option.map_eq_some_iff.1 h
  unfold parseChars at hn
  split at hn
  · next m c hm =>
    cases hn
    rw [Node.kind_mapSpan, kind_attach, kind_of_program hm]
  · cases hn

end Grammar

namespace Program

/-- What has been read in a grammar has been parsed in it, and its escapes are in range. -/
theorem of_parse? {d : Grammar.Dialect} {source : Source} {p : Program}
    (h : parse? d source = some p) :
    Grammar.parse d source = some p.root ∧ p.source = source ∧ p.escapesValid = true := by
  unfold parse? at h
  split at h
  · next root hroot =>
    dsimp only at h
    split at h
    · next hvalid =>
      cases h
      exact ⟨hroot, rfl, hvalid⟩
    · cases h
  · cases h

theorem kind_root_of_parse? {d : Grammar.Dialect} {source : Source} {p : Program}
    (h : parse? d source = some p) : p.root.kind = .program := Grammar.kind_of_parse (of_parse? h).1

theorem source_of_parse? {d : Grammar.Dialect} {source : Source} {p : Program}
    (h : parse? d source = some p) : p.source = source := (of_parse? h).2.1

theorem parse?_of_tryGrammars {doc : Document} {p : Program} : ∀ {gs : List Text},
    (tryGrammars doc gs).outcome = .ok (some p) →
    ∃ d source, doc.source? = some source ∧ parse? d source = some p
  | [], h => by cases h
  | g :: gs, h => by
    unfold tryGrammars at h
    split at h
    · cases h
    · split at h
      · obtain ⟨_, -, h⟩ := Traced.bind_ok_iff.1 h
        exact parse?_of_tryGrammars h
      · next hsource =>
        split at h
        · next hp =>
          cases h
          exact ⟨_, _, hsource, hp⟩
        · exact parse?_of_tryGrammars h

/-- A document is read in some grammar. -/
theorem parse?_of_read {doc : Document} {gs : List Text} {p : Program}
    (h : (read doc gs).outcome = .ok (some p)) :
    ∃ d source, doc.source? = some source ∧ parse? d source = some p := by
  obtain ⟨r, hr, h⟩ := Traced.bind_ok_iff.1 h
  cases r with
  | none => cases h
  | some q =>
    cases h
    exact parse?_of_tryGrammars hr

theorem tryGrammars_returns (doc : Document) : ∀ {gs : List Text},
    (∀ g ∈ gs, (Grammar.Dialect.ofName? g).isSome) → ∃ r, (tryGrammars doc gs).outcome = .ok r
  | [], _ => ⟨none, rfl⟩
  | g :: gs, h => by
    obtain ⟨d, hd⟩ := Option.isSome_iff_exists.1 (h g List.mem_cons_self)
    obtain ⟨r, hr⟩ := tryGrammars_returns doc fun g hg => h g (List.mem_cons_of_mem _ hg)
    unfold tryGrammars
    rw [hd]
    dsimp only
    split
    · exact ⟨r, Traced.bind_ok_iff.2 ⟨(), rfl, hr⟩⟩
    · split
      · exact ⟨_, rfl⟩
      · exact ⟨r, hr⟩

/-- Reading a text as a program always comes to an answer. -/
theorem ofText_returns (t : Text) : ∃ r, (ofText t).outcome = .ok r := by
  have hnames : ∀ g ∈ defaultGrammars, (Grammar.Dialect.ofName? g).isSome := by decide
  obtain ⟨r, hr⟩ := tryGrammars_returns (.text t) hnames
  unfold ofText read
  cases r with
  | none => exact ⟨none, Traced.bind_ok_iff.2 ⟨none, hr, rfl⟩⟩
  | some p => exact ⟨some p, Traced.bind_ok_iff.2 ⟨some p, hr, rfl⟩⟩

/-- Whatever is read as a program has a program as its root. -/
theorem kind_root_of_read {doc : Document} {gs : List Text} {p : Program}
    (h : (read doc gs).outcome = .ok (some p)) : p.root.kind = .program := by
  obtain ⟨_, _, -, hp⟩ := parse?_of_read h
  exact kind_root_of_parse? hp

theorem kind_root_of_ofText {t : Text} {p : Program} (h : (ofText t).outcome = .ok (some p)) :
    p.root.kind = .program := kind_root_of_read h

end Program

end KeyTrace
