/-
The names that a pattern binds.
-/
import KeyTrace.Syntax.Shape

namespace KeyTrace.Place

/-- One layer of what may be around a parameter: a TypeScript parameter or a default value. -/
def peelStep? (n : Node) : Option Role :=
  match n.kind with
  | .requiredParameter | .optionalParameter => some .pattern
  | .assignmentPattern => some .left
  | _ => none

mutual

/-- The pattern under parameters and default values. -/
def peelOf (above : List Node) : Node → Place
  | .mk r k s cs =>
    match peelStep? (.mk r k s cs) with
    | none => ⟨.mk r k s cs, above⟩
    | some role => (peelChild role (.mk r k s cs :: above) cs).getD ⟨.mk r k s cs, above⟩

/-- The pattern under the first child in a role. -/
def peelChild (role : Role) (above : List Node) : List Node → Option Place
  | [] => none
  | c :: cs => if c.role = role then some (peelOf above c) else peelChild role above cs

end

/-- The pattern under parameters and default values. -/
def peel (p : Place) : Place := peelOf p.above p.node

/-- How the names of a pattern follow from its parts. -/
inductive PatternForm where
  /-- The pattern is a name. -/
  | name
  /-- The names are those of the first child in a role. -/
  | child (role : Role)
  /-- The names are those of all children. -/
  | all
  /-- There are no names. -/
  | nothing

/-- The form of a pattern of a kind. -/
def patternForm : Kind → PatternForm
  | .identifier | .shorthandPropertyIdentifierPattern | .typeIdentifier => .name
  | .requiredParameter | .optionalParameter => .child .pattern
  | .assignmentPattern | .objectAssignmentPattern => .child .left
  | .pairPattern => .child .value
  | .objectPattern | .arrayPattern | .restPattern => .all
  | _ => .nothing

mutual

/-- The places of the names that a pattern binds, in source order. -/
def namesOf (above : List Node) : Node → List Place
  | .mk r k s cs =>
    match patternForm k with
    | .name => [⟨.mk r k s cs, above⟩]
    | .child role => namesOfChild role (.mk r k s cs :: above) cs
    | .all => namesOfAll (.mk r k s cs :: above) cs
    | .nothing => []

def namesOfChild (role : Role) (above : List Node) : List Node → List Place
  | [] => []
  | c :: cs => if c.role = role then namesOf above c else namesOfChild role above cs

def namesOfAll (above : List Node) : List Node → List Place
  | [] => []
  | c :: cs => if c.isComment then namesOfAll above cs else namesOf above c ++ namesOfAll above cs

end

/-- The places of the names that a pattern binds, in source order. -/
def patternNames (p : Place) : List Place := namesOf p.above p.node

end KeyTrace.Place
