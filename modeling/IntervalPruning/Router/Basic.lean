import IntervalPruning.Prune.Basic
import IntervalPruning.Stats

/-!
# IntervalPruning.Router.Basic

Where a constraint goes before the prover sees it:

* one variable: its interval is narrowed, if the constraint is a bound, and the constraint is
  asserted as it is;
* no variable, or several but not too many: it is pruned, and what is left is asserted;
* too many variables, or a router that is switched off: it is asserted as it is.

The router decides what is to be asserted without asking the prover. What it has learnt from a
constraint it keeps, whatever becomes of the assertion later.
-/

namespace IntervalPruning

structure Config where
  enabled : Bool := true
  /-- a query with more variables is not pruned -/
  maxQueryVars : Nat := 17
  /-- how many nodes one pruning may visit -/
  pruneBudget : Nat := 500
  deriving DecidableEq, Repr

inductive Route where
  | verbatim
  | single
  | query
  | wide
  deriving DecidableEq, Repr

/-- The route of a constraint with `n` variables. -/
def Config.route (c : Config) (n : Nat) : Route :=
  if !c.enabled then .verbatim
  else if n = 1 then .single
  else if n ≤ c.maxQueryVars then .query
  else .wide

structure Router where
  config : Config := {}
  ranges : Ranges := .empty
  stats : Stats := {}
  deriving DecidableEq, Repr

/-- The router after a constraint was dealt with, and the formula that is to be asserted. -/
structure Routed where
  router : Router
  assertion : Formula
  deriving DecidableEq

namespace Router

def passThrough (r : Router) (f : Formula) : Routed :=
  ⟨{ r with stats.passthrough := r.stats.passthrough + 1 }, f⟩

def observe (r : Router) (f : Formula) : Router := { r with ranges := r.ranges.observe f }

def track (r : Router) (f : Formula) : Routed :=
  if f.bound?.isSome then
    ⟨{ r with ranges := r.ranges.constrain f, stats.tracked := r.stats.tracked + 1 }, f⟩
  else ⟨r, f⟩

def countTotal (r : Router) : Router := { r with stats.total := r.stats.total + 1 }

def pruneQuery (r : Router) (f : Formula) : Routed :=
  let outcome := r.ranges.prune f r.config.pruneBudget
  if outcome.fellBack then ⟨{ r with stats.fallbacks := r.stats.fallbacks + 1 }, f⟩
  else ⟨{ r with stats.solved := r.stats.solved + 1 }, outcome.formula⟩

/-- Deals with a constraint by the number of its variables. -/
def add (r : Router) (f : Formula) : Routed :=
  match r.config.route f.freeVars.length with
  | .verbatim => r.passThrough f
  | .single => (r.observe f).track f
  | .query => (r.observe f).countTotal.pruneQuery f
  | .wide => (r.observe f).countTotal.passThrough f

/-- Deals with a constraint as with a query, whatever the number of its variables. -/
def query (r : Router) (f : Formula) : Routed :=
  if r.config.enabled then r.pruneQuery f else r.passThrough f

/-- The whole state in one line. -/
def text (r : Router) : String :=
  "ProverRouter \x7b config: RouterConfig \x7b enabled: " ++ toString r.config.enabled ++
    ", max_query_vars: " ++ toString r.config.maxQueryVars ++
    ", prune_budget: " ++ toString r.config.pruneBudget ++
    " \x7d, stats: RouterStats \x7b total_constraints: " ++ toString r.stats.total ++
    ", solved_constraints: " ++ toString r.stats.solved ++
    ", tracked: " ++ toString r.stats.tracked ++
    ", passthrough: " ++ toString r.stats.passthrough ++
    ", fallbacks: " ++ toString r.stats.fallbacks ++
    " \x7d, tracked_vars: " ++ toString r.ranges.size ++ " \x7d"

end Router

end IntervalPruning
