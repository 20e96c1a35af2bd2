/-!
# IntervalPruning.Rel

The five relations between integers that a comparison may state. There is no "different from":
the integers different from a given one do not form an interval, so `eq` has no negation here.
-/

namespace IntervalPruning

inductive Rel where
  | lt
  | le
  | gt
  | ge
  | eq
  deriving DecidableEq, Repr

namespace Rel

def holds : Rel → Int → Int → Bool
  | lt, m, n => decide (m < n)
  | le, m, n => decide (m ≤ n)
  | gt, m, n => decide (n < m)
  | ge, m, n => decide (n ≤ m)
  | eq, m, n => decide (m = n)

/-- The relation that holds exactly when this one does not. -/
def negate? : Rel → Option Rel
  | lt => some ge
  | le => some gt
  | gt => some le
  | ge => some lt
  | eq => none

/-- The relation that says the same with the two sides exchanged. -/
def flip : Rel → Rel
  | lt => gt
  | le => ge
  | gt => lt
  | ge => le
  | eq => eq

theorem holds_flip (r : Rel) (m n : Int) : r.flip.holds n m = r.holds m n := by
  cases r
  case eq => simp only [flip, holds, eq_comm]
  all_goals rfl

theorem holds_negate {r s : Rel} (h : r.negate? = some s) (m n : Int) :
    s.holds m n = !r.holds m n := by
  cases r <;> cases h <;> simp [holds, ← decide_not]

def text : Rel → String
  | lt => "<"
  | le => "<="
  | gt => ">"
  | ge => ">="
  | eq => "=="

end Rel

end IntervalPruning
