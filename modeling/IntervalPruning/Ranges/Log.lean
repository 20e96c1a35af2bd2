import IntervalPruning.Event
import IntervalPruning.Ranges.Basic

/-!
# IntervalPruning.Ranges.Log

The events of the operations on ranges, each listed from the ranges before the operation.
-/

namespace IntervalPruning

namespace Ranges

def registerEvents (rs : Ranges) (v : Var) : List Event :=
  if v ∈ rs then [] else [.registered v]

def registerAllEvents (rs : Ranges) : List Var → List Event
  | [] => []
  | v :: vs => rs.registerEvents v ++ (rs.register v).registerAllEvents vs

def observeEvents (rs : Ranges) (f : Formula) : List Event := rs.registerAllEvents f.freeVars

/-- An interval that was empty before does not become infeasible once more. -/
def narrowEvents (rs : Ranges) (v : Var) (i : Interval) : List Event :=
  let old := rs.get v
  let new := old ∩ i
  rs.registerEvents v ++ [.narrowed v old i new] ++
    if new.IsEmpty ∧ ¬ old.IsEmpty then [.infeasible v new] else []

def constrainEvents (rs : Ranges) (f : Formula) : List Event :=
  match f.bound? with
  | some (v, i) => .implied f v i :: rs.narrowEvents v i
  | none => [.unrecognised f]

end Ranges

end IntervalPruning
