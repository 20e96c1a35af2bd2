import IntervalPruning.Formula.Vars
import IntervalPruning.Interval.Compare
import IntervalPruning.Ranges.Basic

/-!
# IntervalPruning.Prune.Basic

Rewriting a formula with the intervals of its variables, arguments before the whole:

* a term whose interval is a point becomes that constant;
* a comparison that the intervals of its sides settle becomes its truth value;
* a connective drops the arguments that cannot settle it, and one argument that does settle it
  ends the reading of the rest.

Each visited node costs one unit of a budget. The traversal hands on what is left, and there is
no result once a node finds nothing left; the formula then stays as it was.
-/

namespace IntervalPruning

namespace Term

/-- A term with its interval, written as a constant if the interval is a point. -/
def settle (t : Term) (i : Interval) : Term × Interval :=
  ((i.point?.map const).getD t, i)

/-- The rewritten term, its interval, and the budget that is left. -/
def prune? (range : Var → Interval) : Term → Nat → Option ((Term × Interval) × Nat)
  | _, 0 => none
  | var v, budget + 1 => some (settle (var v) (range v), budget)
  | const n, budget + 1 => some (settle (const n) (.point n), budget)
  | neg t, budget + 1 => do
    let ((t, i), budget) ← t.prune? range budget
    some (settle (neg t) (-i), budget)
  | bin op s t, budget + 1 => do
    let ((s, i), budget) ← s.prune? range budget
    let ((t, j), budget) ← t.prune? range budget
    some (settle (bin op s t) (op.apply i j), budget)

end Term

namespace Formula

def negate : Formula → Formula
  | const b => const !b
  | f => not f

/-- What is left of the arguments of a connective: nothing to add to an argument that settled
it, or those that could not be settled. -/
inductive Residue where
  | absorbed
  | kept (args : List Formula)
  deriving DecidableEq

def Residue.cons (f : Formula) : Residue → Residue
  | absorbed => absorbed
  | kept fs => kept (f :: fs)

def Residue.toFormula (c : Connective) : Residue → Formula
  | absorbed => const c.absorbing
  | kept [] => const !c.absorbing
  | kept [f] => f
  | kept (f :: g :: fs) => conn c (f :: g :: fs)

mutual
/-- The rewritten formula and the budget that is left. -/
def prune? (range : Var → Interval) : Formula → Nat → Option (Formula × Nat)
  | _, 0 => none
  | const b, budget + 1 => some (const b, budget)
  | cmp r s t, budget + 1 => do
    let ((s, i), budget) ← s.prune? range budget
    let ((t, j), budget) ← t.prune? range budget
    some (((r.decide? i j).map const).getD (cmp r s t), budget)
  | not f, budget + 1 => do
    let (f, budget) ← f.prune? range budget
    some (f.negate, budget)
  | conn c args, budget + 1 => do
    let (rest, budget) ← pruneArgs? range c args budget
    some (rest.toFormula c, budget)

def pruneArgs? (range : Var → Interval) (c : Connective) :
    List Formula → Nat → Option (Residue × Nat)
  | [], budget => some (.kept [], budget)
  | f :: fs, budget => do
    let (f, budget) ← f.prune? range budget
    match f.const? with
    | some b => if b = c.absorbing then some (.absorbed, budget) else pruneArgs? range c fs budget
    | none =>
      let (rest, budget) ← pruneArgs? range c fs budget
      some (rest.cons f, budget)
end

end Formula

/-- The outcome for one query. After a fallback the formula is the query itself and the budget
is used up. -/
structure Pruned where
  formula : Formula
  remaining : Nat
  fellBack : Bool
  deriving DecidableEq

def Formula.prune (range : Var → Interval) (query : Formula) (budget : Nat) : Pruned :=
  match query.prune? range budget with
  | some (f, rest) => ⟨f, rest, false⟩
  | none => ⟨query, 0, true⟩

def Ranges.prune (rs : Ranges) (query : Formula) (budget : Nat) : Pruned :=
  query.prune rs.effective budget

def Ranges.termInterval (rs : Ranges) (t : Term) : Interval := t.interval rs.effective

/-- Prunes one query after another over the same ranges, and knows whether the last one fell
back. -/
structure Pruner where
  ranges : Ranges
  fallback : Bool := false

def Pruner.prune (p : Pruner) (query : Formula) (budget : Nat) : Pruned × Pruner :=
  let outcome := p.ranges.prune query budget
  (outcome, { p with fallback := outcome.fellBack })

end IntervalPruning
