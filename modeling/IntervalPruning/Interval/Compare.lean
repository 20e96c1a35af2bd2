import IntervalPruning.Interval.Basic

/-!
# IntervalPruning.Interval.Compare

What two intervals say about a comparison of their values:

* `Rel.always` — every value of the left one is in the relation to every value of the right one;
* `Rel.never`  — none is;
* `Rel.decide?` — the verdict, if the ends give one.

Only finite ends are looked at.
-/

namespace IntervalPruning

namespace Rel

def always : Rel → Interval → Interval → Bool
  | lt, i, j => i.upper.finLt j.lower
  | le, i, j => i.upper.finLe j.lower
  | gt, i, j => j.upper.finLt i.lower
  | ge, i, j => j.upper.finLe i.lower
  | eq, i, j => i.point?.isSome && decide (i = j)

/-- The negation always holds; two values are never equal when one always lies below the other. -/
def never (r : Rel) (i j : Interval) : Bool :=
  match r.negate? with
  | some s => s.always i j
  | none => lt.always i j || gt.always i j

def decide? (r : Rel) (i j : Interval) : Option Bool :=
  if r.always i j then some true
  else if r.never i j then some false
  else none

end Rel

end IntervalPruning
