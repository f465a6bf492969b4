import DreamBerd.World.Load

/-!
# The start of a world
-/

namespace DreamBerd

def Surroundings.quiet : Surroundings where
  chances := []
  nextAddress := 1
  currency := none
  published := []
  hasToken := false
  hasInput := true
  hasGlobals := true
  archive := none
  events := []
  issues := []
  timers := []
  listeners := #[]
  ended := []
  delivering := false

namespace World

/-- A world without names, in which no program has run. -/
def bare (around : Surroundings) (source : Source) : World where
  store := .empty
  part := .start source .empty 0
  past := []
  around := around
  output := ""
  pages := []
  predefined := .empty

end World

def Run.result {α : Type} (x : Run α) (w : World) : Except Fault α × World :=
  match x.run w with
  | .ok a w => (.ok a, w)
  | .error f w => (.error f, w)

/-- A world with the predefined names, in which no program has run. -/
def World.start (around : Surroundings) (source : Source) : World :=
  (Run.loadPredefined.result (.bare around source)).2

end DreamBerd
