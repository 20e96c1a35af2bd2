import IntervalPruning.Prune.Log
import IntervalPruning.Ranges.Log
import IntervalPruning.Router.Basic

/-!
# IntervalPruning.Router.Log

The events of the router, each listed from the router before the operation.
-/

namespace IntervalPruning

namespace Router

def trackEvents (r : Router) (f : Formula) : List Event :=
  if f.bound?.isSome then r.ranges.constrainEvents f else []

def pruneQueryEvents (r : Router) (f : Formula) : List Event :=
  let outcome := r.ranges.prune f r.config.pruneBudget
  r.ranges.pruneEvents f r.config.pruneBudget ++
    if outcome.fellBack then [] else [.queried f outcome.formula]

def addEvents (r : Router) (f : Formula) : List Event :=
  let n := f.freeVars.length
  let met := r.ranges.observeEvents f ++ [.counted f n]
  match r.config.route n with
  | .verbatim => []
  | .single => met ++ (r.observe f).trackEvents f
  | .query => met ++ (r.observe f).pruneQueryEvents f
  | .wide => met ++ [.tooWide n r.config.maxQueryVars]

def queryEvents (r : Router) (f : Formula) : List Event :=
  if r.config.enabled then r.pruneQueryEvents f else []

def unsatEvents (r : Router) : List Event :=
  match r.ranges.infeasible with
  | [] => []
  | vs => [.askedAnyway vs.length]

def closeEvents (r : Router) : List Event := [.closing r.stats]

end Router

end IntervalPruning
