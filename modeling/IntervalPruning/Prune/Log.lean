import IntervalPruning.Event
import IntervalPruning.Prune.Basic

/-!
# IntervalPruning.Prune.Log

The events of pruning: each comparison that was settled, in the order of the traversal and as
far as the budget went, then how the traversal ended.
-/

namespace IntervalPruning

namespace Formula

mutual
def decisions (range : Var → Interval) : Formula → Nat → List Decision
  | cmp r s t, budget + 1 =>
    match s.prune? range budget with
    | none => []
    | some ((_, i), budget) =>
      match t.prune? range budget with
      | none => []
      | some ((_, j), _) => ((r.decide? i j).map fun b => ⟨r, i, j, b⟩).toList
  | not f, budget + 1 => f.decisions range budget
  | conn c args, budget + 1 => decisionsArgs range c args budget
  | _, _ => []

def decisionsArgs (range : Var → Interval) (c : Connective) :
    List Formula → Nat → List Decision
  | [], _ => []
  | f :: fs, budget =>
    f.decisions range budget ++
      match f.prune? range budget with
      | none => []
      | some (g, budget) =>
        if g = const c.absorbing then [] else decisionsArgs range c fs budget
end

end Formula

def Ranges.pruneEvents (rs : Ranges) (query : Formula) (budget : Nat) : List Event :=
  let outcome := rs.prune query budget
  (query.decisions rs.effective budget).map .decided ++
    (if outcome.fellBack then [.exhausted budget] else []) ++
    [.pruned query outcome.formula (budget - outcome.remaining)]

end IntervalPruning
