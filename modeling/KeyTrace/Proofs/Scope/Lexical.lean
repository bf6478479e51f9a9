/-
The lexical rule: what a name means at a place of a program, said of the tree
alone, without scopes.

A region is the program, a function with the block that is its body, or any
other block, loop, catch clause or switch body. Every declaration belongs to one
region around it. A name means the last declaration of it in the innermost region
that has one. What is in a comment is neither a region nor a declaration.
-/
import KeyTrace.Scope.Tree

namespace KeyTrace

namespace Kind

/-- The kinds of node inside a program that a scope can belong to. -/
def opensScope (k : Kind) : Bool := k.isFunction || k.opensBlock

/-- The kinds of node that a scope can belong to. -/
def formsScope (k : Kind) : Bool := k == .program || k.opensScope

end Kind

/-- The spans and kinds of those of some nodes that a scope can belong to. -/
def Node.scopeKeys (ns : List Node) : List Node.Key :=
  (ns.filter fun n => n.kind.formsScope).map Node.key

/-- No two nodes that a scope can belong to have the same span and kind. -/
def Node.ScopesApart (root : Node) : Prop := (Node.scopeKeys root.preorder).Nodup

instance (root : Node) : Decidable root.ScopesApart :=
  inferInstanceAs (Decidable (List.Nodup _))

/-- The block that is the body of a function comes after the other parts of the function. -/
def Node.BodiesLast (ns : List Node) : Prop :=
  ∀ f ∈ ns, f.kind.isFunction = true →
    ∀ b, ScopeTree.bodyBlock? f = some b → f.children.getLast? = some b

namespace Place

/-- The place is not in a comment. -/
def isCode (p : Place) : Bool := p.chain.all fun n => !n.isComment

/-- The node there is the block of the function right above it. -/
def isBody (p : Place) : Bool :=
  match p.above with
  | [] => false
  | f :: _ => f.kind.isFunction && (ScopeTree.bodyBlock? f).any fun b => b.key == p.node.key

/-- The node there has a region of its own. -/
def isRegion (p : Place) : Bool :=
  p.above.isEmpty || p.node.kind.isFunction || (p.node.kind.opensBlock && !p.isBody)

/-- The names of `var` go no further out than this. -/
def stopsVar (p : Place) : Bool := p.above.isEmpty || p.node.kind.isFunction

/-- The regions around a place, its own included, the innermost first. -/
def regionsOf (n : Node) : (above : List Node) → List Place
  | [] => [⟨n, []⟩]
  | a :: as => if isRegion ⟨n, a :: as⟩ then ⟨n, a :: as⟩ :: regionsOf a as else regionsOf a as

def regions (p : Place) : List Place := regionsOf p.node p.above

/-- The innermost region around a place. -/
def regionOf (n : Node) : (above : List Node) → Place
  | [] => ⟨n, []⟩
  | a :: as => if isRegion ⟨n, a :: as⟩ then ⟨n, a :: as⟩ else regionOf a as

def region (p : Place) : Place := regionOf p.node p.above

/-- The innermost function around a place, or the program. -/
def functionRegionOf (n : Node) : (above : List Node) → Place
  | [] => ⟨n, []⟩
  | a :: as => if n.kind.isFunction then ⟨n, a :: as⟩ else functionRegionOf a as

def functionRegion (p : Place) : Place := functionRegionOf p.node p.above

/-- The innermost region around a place that is not its own. -/
def outerRegion (p : Place) : Place :=
  match p.up? with
  | some q => q.region
  | none => p

mutual

/-- The places at or below a node that are not in comments, parents first and in source order, the
body of a function after its other parts. -/
def codeOf (above : List Node) : Node → List Place
  | .mk r k s cs =>
    let n := Node.mk r k s cs
    ⟨n, above⟩ ::
      if k.isFunction then
        match ScopeTree.bodyBlock? n with
        | none => codeOfAll (n :: above) cs
        | some b => codeOfOthers (n :: above) b.key cs ++ codeOfBody (n :: above) b.key cs
      else codeOfAll (n :: above) cs
termination_by structural n => n

def codeOfAll (above : List Node) : List Node → List Place
  | [] => []
  | c :: cs => if c.isComment then codeOfAll above cs else codeOf above c ++ codeOfAll above cs
termination_by structural l => l

def codeOfOthers (above : List Node) (body : Node.Key) : List Node → List Place
  | [] => []
  | c :: cs =>
    if c.isComment || c.key == body then codeOfOthers above body cs
    else codeOf above c ++ codeOfOthers above body cs
termination_by structural l => l

def codeOfBody (above : List Node) (body : Node.Key) : List Node → List Place
  | [] => []
  | .mk r k s cs :: rest =>
    let c := Node.mk r k s cs
    if r == .body && c.key == body then ⟨c, above⟩ :: codeOfAll (c :: above) cs
    else codeOfBody above body rest
termination_by structural l => l

end

/-- The places of a program that are not in comments, the body of a function after its other
parts. -/
def code (root : Node) : List Place := ⟨root, []⟩ :: codeOfAll [root] root.allChildren

theorem outerRegion_cons (n a : Node) (as : List Node) :
    outerRegion ⟨n, a :: as⟩ = region ⟨a, as⟩ := rfl

theorem opensScope_of_isRegion {n a : Node} {as : List Node}
    (h : isRegion ⟨n, a :: as⟩ = true) : n.kind.opensScope = true := by
  simp only [isRegion, List.isEmpty_cons, Bool.false_or, Bool.or_eq_true, Bool.and_eq_true] at h
  simp only [Kind.opensScope, Bool.or_eq_true]
  exact h.imp_right And.left

theorem regions_of_isRegion {n a : Node} {as : List Node} (h : isRegion ⟨n, a :: as⟩ = true) :
    regions ⟨n, a :: as⟩ = ⟨n, a :: as⟩ :: regions ⟨a, as⟩ := by
  simp only [regions, regionsOf, h, if_true]

theorem regions_of_not_isRegion {n a : Node} {as : List Node}
    (h : isRegion ⟨n, a :: as⟩ = false) : regions ⟨n, a :: as⟩ = regions ⟨a, as⟩ := by
  simp only [regions, regionsOf, h, Bool.false_eq_true, if_false]

theorem region_of_isRegion : ∀ {p : Place}, p.isRegion = true → p.region = p
  | ⟨_, []⟩, _ => rfl
  | ⟨_, _ :: _⟩, h => by simp only [region, regionOf, h, if_true]

theorem region_of_not_isRegion {n a : Node} {as : List Node}
    (h : isRegion ⟨n, a :: as⟩ = false) : region ⟨n, a :: as⟩ = region ⟨a, as⟩ := by
  simp only [region, regionOf, h, Bool.false_eq_true, if_false]

/-- The regions around a place are those around its innermost region. -/
theorem regions_region : ∀ p : Place, p.region.regions = p.regions
  | ⟨_, []⟩ => rfl
  | ⟨n, a :: as⟩ => by
    cases h : isRegion ⟨n, a :: as⟩ with
    | true => rw [region_of_isRegion h]
    | false => rw [region_of_not_isRegion h, regions_of_not_isRegion h, regions_region ⟨a, as⟩]

/-- The innermost function is the first of the regions around a place that stops `var`. -/
theorem find?_stopsVar_regions : ∀ p : Place, p.regions.find? stopsVar = some p.functionRegion
  | ⟨_, []⟩ => rfl
  | ⟨n, a :: as⟩ => by
    have ih := find?_stopsVar_regions ⟨a, as⟩
    cases hf : n.kind.isFunction with
    | true =>
      have h : isRegion ⟨n, a :: as⟩ = true := by simp [isRegion, hf]
      simp [regions_of_isRegion h, stopsVar, functionRegion, functionRegionOf, hf]
    | false =>
      have hr : functionRegion ⟨n, a :: as⟩ = functionRegion ⟨a, as⟩ := by
        simp [functionRegion, functionRegionOf, hf]
      cases h : isRegion ⟨n, a :: as⟩ with
      | true => simp [regions_of_isRegion h, stopsVar, hf, hr, ih]
      | false => rw [regions_of_not_isRegion h, hr, ih]

theorem isCode_of_mem_regions : ∀ {p q : Place}, p.isCode = true → q ∈ p.regions → q.isCode = true
  | ⟨_, []⟩, q, hp, hq => by rwa [List.mem_singleton.1 hq]
  | ⟨n, a :: as⟩, q, hp, hq => by
    have hup : isCode ⟨a, as⟩ = true := by
      simp only [isCode, chain, List.all_cons, Bool.and_eq_true] at hp ⊢
      exact hp.2
    cases h : isRegion ⟨n, a :: as⟩ with
    | true =>
      rw [regions_of_isRegion h, List.mem_cons] at hq
      rcases hq with rfl | hq
      · exact hp
      · exact isCode_of_mem_regions hup hq
    | false =>
      rw [regions_of_not_isRegion h] at hq
      exact isCode_of_mem_regions hup hq

theorem functionRegion_region (p : Place) : p.region.functionRegion = p.functionRegion := by
  have h := find?_stopsVar_regions p.region
  rw [regions_region, find?_stopsVar_regions p] at h
  exact (Option.some.inj h).symm

end Place

/-- A name that is declared, and the region it belongs to. -/
structure Declaration where
  region : Place
  name : Text
  binding : Binding

namespace Declaration

/-- The names of a pattern, declared alike. -/
def ofPattern (source : Source) (region : Place) (pattern : Option Place) (b : Binding) :
    List Declaration :=
  match pattern with
  | none => []
  | some p => p.patternNames.map fun n => ⟨region, n.node.text source, b⟩

/-- What one declarator declares. -/
def ofVariable (source : Source) (region d : Place) : List Declaration :=
  if d.node.kind ≠ .variableDeclarator then []
  else match d.child? .name with
    | none => []
    | some n =>
      if n.node.kind = .identifier then [⟨region, n.node.text source, .declared d⟩]
      else ofPattern source region (some n) (.other d)

/-- What one parameter of a function declares. -/
def ofParameter (source : Source) (f : Place) (parameter : Place × Nat) : List Declaration :=
  let names := parameter.1.patternNames
  let simple := names.length == 1 && parameter.1.peel.node.kind == .identifier
  names.map fun n => ⟨f, n.node.text source, .parameter n f parameter.2 simple⟩

/-- What the parameters of a function declare. -/
def ofParameters (source : Source) (f : Place) : List Declaration :=
  (ScopeTree.parametersOf f).zipIdx.flatMap (ofParameter source f)

/-- What the node at a place declares. -/
def atPlace (source : Source) (p : Place) : List Declaration :=
  match p.node.kind with
  | .lexicalDeclaration => p.children.flatMap (ofVariable source p.region)
  | .variableDeclaration => p.children.flatMap (ofVariable source p.functionRegion)
  | .classDeclaration => ofPattern source p.region (p.child? .name) (.other p)
  | .functionDeclaration | .generatorFunctionDeclaration =>
    ofPattern source p.outerRegion (p.child? .name) (.other p) ++ ofParameters source p
  | .functionExpression | .generatorFunction =>
    ofPattern source p (p.child? .name) (.other p) ++ ofParameters source p
  | .arrowFunction | .methodDefinition => ofParameters source p
  | .catchClause => ofPattern source p (p.child? .parameter) (.other p)
  | .forInStatement (some .var) => ofPattern source p.functionRegion (p.child? .left) (.other p)
  | .forInStatement (some _) => ofPattern source p (p.child? .left) (.other p)
  | _ => []

/-- What a program declares, in order: its imports, and then the code. -/
def ofProgram (p : Program) (imports : List (Text × Import)) : List Declaration :=
  imports.map (fun i => ⟨.root p.root, i.1, .imported i.2⟩)
    ++ (Place.code p.root).flatMap (atPlace p.source)

/-- What the last of some declarations of a name in a region binds it to. -/
def last? (ds : List Declaration) (region : Place) (name : Text) : Option Binding :=
  ds.reverse.findSome? fun d =>
    if d.region.node.key = region.node.key ∧ d.name = name then some d.binding else none

/-- What a name means at a place by the lexical rule. -/
def meaning? (ds : List Declaration) (p : Place) (name : Text) : Option Binding :=
  (p.regions.filter Place.isCode).findSome? fun r => last? ds r name

end Declaration
end KeyTrace
