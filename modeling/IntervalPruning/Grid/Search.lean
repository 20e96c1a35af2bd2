import IntervalPruning.Formula.Vars

/-!
# IntervalPruning.Grid.Search

Solving by trying values: each variable runs from `-radius` to `radius`, the variable that
occurs first most slowly. A formula is checked as soon as its last variable has a value.
-/

namespace IntervalPruning

namespace Grid

/-- Values given to variables so far. -/
abbrev Assignment := List (Var × Int)

def Assignment.env (a : Assignment) (v : Var) : Int := (a.lookup v).getD 0

/-- The variables of all formulas, in the order of first occurrence. -/
def order (fs : List Formula) : List Var := (fs.flatMap Formula.vars).eraseDups

/-- Each variable with the formulas of which it is the last one in the order. -/
def levels (fs : List Formula) : List Var → List (Var × List Formula)
  | [] => []
  | v :: vs =>
    (v, fs.filter fun f => decide (v ∈ f.freeVars) && vs.all fun w => decide (w ∉ f.freeVars)) ::
      levels fs vs

/-- The first result among those for `start`, `start + 1` and so on, `count` of them. -/
def firstFrom {α : Type} (attempt : Int → Option α) (start : Int) : Nat → Option α
  | 0 => none
  | count + 1 =>
    match attempt start with
    | some a => some a
    | none => firstFrom attempt (start + 1) count

/-- Gives values to the variables of the levels, one level after the other. -/
def search (radius : Int) : List (Var × List Formula) → Assignment → Option Assignment
  | [], a => some a
  | (v, checks) :: rest, a =>
    firstFrom (fun n =>
        let extended := a ++ [(v, n)]
        if checks.all fun f => f.eval extended.env then search radius rest extended else none)
      (-radius) (2 * radius + 1).toNat

/-- The first solution, if there is one within the radius. -/
def solve (radius : Int) (fs : List Formula) : Option Assignment :=
  let ground := fs.filter fun f => f.freeVars.isEmpty
  if ground.all fun f => f.eval (Assignment.env []) then search radius (levels fs (order fs)) []
  else none

end Grid

end IntervalPruning
