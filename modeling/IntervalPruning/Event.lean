import IntervalPruning.Formula.Text
import IntervalPruning.NameTable
import IntervalPruning.Stats

/-!
# IntervalPruning.Event

What is worth a line in the log, as data: each operation that logs has a function beside it that
lists its events, and `Event.level` and `Event.text` say how a line reads. Formulas are written
with the numbers of their variables, or with their names where a session reports about one.
-/

namespace IntervalPruning

inductive Level where
  | debug
  | info
  | warn
  deriving DecidableEq, Repr

def Level.text : Level → String
  | debug => "debug"
  | info => "info"
  | warn => "warn"

/-- A comparison settled by the intervals of its two sides. -/
structure Decision where
  rel : Rel
  left : Interval
  right : Interval
  verdict : Bool
  deriving DecidableEq, Repr

inductive Event where
  /-- a variable met for the first time -/
  | registered (v : Var)
  | narrowed (v : Var) (old bound new : Interval)
  /-- a variable lost its last value -/
  | infeasible (v : Var) (new : Interval)
  /-- a constraint that bounds no variable -/
  | unrecognised (f : Formula)
  | implied (f : Formula) (v : Var) (bound : Interval)
  | decided (d : Decision)
  | exhausted (budget : Nat)
  | pruned (query result : Formula) (visited : Nat)
  | counted (f : Formula) (n : Nat)
  /-- more variables than a query may have -/
  | tooWide (n max : Nat)
  | queried (query result : Formula)
  /-- the prover is asked although some variables have no value left -/
  | askedAnyway (n : Nat)
  | closing (stats : Stats)
  deriving DecidableEq

namespace Event

def level : Event → Level
  | infeasible _ _ => .warn
  | closing _ => .info
  | _ => .debug

def text (names : NameTable) : Event → String
  | registered v => "register(" ++ v.text ++ ")"
  | narrowed v old bound new =>
    "narrow(" ++ v.text ++ ": " ++ old.text ++ " ∩ " ++ bound.text ++ ") -> " ++ new.text
  | infeasible v new => v.text ++ " has become infeasible: " ++ new.text
  | unrecognised f => "push_constraint: unrecognised shape " ++ f.text Var.text
  | implied f v bound =>
    "push_constraint(" ++ f.text Var.text ++ ") => " ++ v.text ++ " in " ++ bound.text
  | decided d =>
    "decide: " ++ d.left.text ++ " " ++ d.rel.text ++ " " ++ d.right.text ++ " => " ++
      toString d.verdict
  | exhausted budget => "prune_tree: budget " ++ toString budget ++ " exhausted, falling back"
  | pruned query result visited =>
    "prune_tree(" ++ query.text Var.text ++ ") -> " ++ result.text Var.text ++
      " (visited " ++ toString visited ++ ")"
  | counted f n => "add_constraint(" ++ f.text names.name ++ "): " ++ toString n ++ " variable(s)"
  | tooWide n max =>
    "add_constraint: " ++ toString n ++ " > " ++ toString max ++ " variables, passing through"
  | queried query result =>
    "push_query: " ++ query.text names.name ++ " => " ++ result.text names.name
  | askedAnyway n =>
    "is_unsat: " ++ toString n ++ " infeasible interval(s), asking the prover anyway"
  | closing stats => "closing prover router: " ++ stats.text

end Event

end IntervalPruning
