/-!
# IntervalPruning.Stats

Counters of a session. They only grow.
-/

namespace IntervalPruning

/-- How the constraints of a session were dealt with:

* `total`       — those that were not about a single variable;
* `solved`      — those pruned within the budget;
* `tracked`     — those that narrowed an interval;
* `passthrough` — those asserted as they came, without a look at them;
* `fallbacks`   — those whose pruning ran out of budget. -/
structure Stats where
  total : Nat := 0
  solved : Nat := 0
  tracked : Nat := 0
  passthrough : Nat := 0
  fallbacks : Nat := 0
  deriving DecidableEq, Repr

def Stats.text (s : Stats) : String :=
  "solved " ++ toString s.solved ++ "/" ++ toString s.total ++ " queries (" ++
    toString s.fallbacks ++ " fallbacks), tracked " ++ toString s.tracked ++
    ", passthrough " ++ toString s.passthrough

end IntervalPruning
