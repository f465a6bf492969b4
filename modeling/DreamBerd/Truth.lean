/-!
# Truth

Something is true, false or maybe.
-/

namespace DreamBerd

inductive Truth where
  | yes
  | no
  | maybe
  deriving DecidableEq

namespace Truth

def ofBool : Bool → Truth
  | true => yes
  | false => no

/-- Negation; maybe stays maybe. -/
def not : Truth → Truth
  | yes => no
  | no => yes
  | maybe => maybe

/-- Disjunction: true if one is, otherwise maybe if one is. -/
def or : Truth → Truth → Truth
  | yes, _ | _, yes => yes
  | maybe, _ | _, maybe => maybe
  | no, no => no

/-- Conjunction: false if one is, otherwise maybe if one is. -/
def and : Truth → Truth → Truth
  | no, _ | _, no => no
  | maybe, _ | _, maybe => maybe
  | yes, yes => yes

/-- Equality, which is maybe as soon as one of the two is. -/
def same : Truth → Truth → Truth
  | maybe, _ | _, maybe => maybe
  | a, b => ofBool (a == b)

def isYes (t : Truth) : Bool := t == yes

def text : Truth → String
  | yes => "true"
  | no => "false"
  | maybe => "maybe"

end Truth

end DreamBerd
