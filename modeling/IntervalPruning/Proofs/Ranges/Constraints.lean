import IntervalPruning.Proofs.Ranges.Updates
import IntervalPruning.Prune.Basic

/-!
# IntervalPruning.Proofs.Ranges.Constraints

Constraints told one after the other, `constrainAll`. What becomes of the intervals does not depend
on the order in which the constraints come, and telling one again adds nothing
(`constrainAll_eq_of_mem_iff`). Only the order of the variables may differ.

An interval whose ends have crossed keeps them, so it does not do to compare the values in it: the
two ends are compared, each on its own (`get_updateAll_congr`).
-/

namespace IntervalPruning

namespace Ranges

def constrainAll (rs : Ranges) (fs : List Formula) : Ranges := fs.foldl constrain rs

theorem constrainAll_eq_updateAll (rs : Ranges) (fs : List Formula) :
    rs.constrainAll fs = rs.updateAll (fs.flatMap Formula.boundUpdates) := by
  induction fs generalizing rs with
  | nil => rfl
  | cons f fs ih =>
    rw [constrainAll, List.foldl_cons, constrain_eq_updateAll, List.flatMap_cons, updateAll_append]
    exact ih _

/-- **Neither order nor repetition of constraints matters.** Two lists with the same constraints,
each told to ranges that know nothing yet, lead to the same two ends for each variable, to the same
variables, and to the same ones without a value left. So every query is pruned in the same way. -/
theorem constrainAll_eq_of_mem_iff (fs gs : List Formula) (h : ∀ f, f ∈ fs ↔ f ∈ gs) :
    let rs := empty.constrainAll fs
    let rs' := empty.constrainAll gs
    (∀ v, rs.get v = rs'.get v) ∧
      (∀ v, v ∈ rs ↔ v ∈ rs') ∧
      (∀ v, v ∈ rs.infeasible ↔ v ∈ rs'.infeasible) ∧
      ∀ query budget, rs.prune query budget = rs'.prune query budget := by
  intro rs rs'
  have hrs : rs = empty.updateAll (fs.flatMap Formula.boundUpdates) :=
    constrainAll_eq_updateAll empty fs
  have hrs' : rs' = empty.updateAll (gs.flatMap Formula.boundUpdates) :=
    constrainAll_eq_updateAll empty gs
  have hupdates (u : Update) :
      u ∈ fs.flatMap Formula.boundUpdates ↔ u ∈ gs.flatMap Formula.boundUpdates := by
    simp only [List.mem_flatMap, h]
  have hget (v : Var) : rs.get v = rs'.get v := by
    rw [hrs, hrs', get_updateAll_congr hupdates]
  refine ⟨hget, fun v => ?_, fun v => ?_, fun query budget => ?_⟩
  · rw [hrs, hrs', mem_updateAll_iff nodup_empty, mem_updateAll_iff nodup_empty]
    simp only [hupdates]
  · have hnodup : rs.vars.Nodup := hrs ▸ nodup_updateAll nodup_empty _
    have hnodup' : rs'.vars.Nodup := hrs' ▸ nodup_updateAll nodup_empty _
    rw [mem_infeasible_iff_isEmpty hnodup, mem_infeasible_iff_isEmpty hnodup', hget]
  · have heffective : rs.effective = rs'.effective := funext (effective_congr hget)
    rw [prune, prune, heffective]

/-- Two bounds on `x` contradict each other, and which of them comes first does not show in the
interval. The bound on `y` is told twice to one side, and `x * x <= 4` is no bound. -/
theorem constrainAll_eq_of_mem_iff_crossed :
    let x : Term := .var ⟨0⟩
    let y : Term := .var ⟨1⟩
    let low : Formula := .cmp .ge x (.const 5)
    let high : Formula := .not (.cmp .gt (.bin .add x (.const 1)) (.const 4))
    let square : Formula := .cmp .le (.bin .mul x x) (.const 4)
    let other : Formula := .cmp .lt (.neg y) (.const 0)
    let rs := empty.constrainAll [low, square, high, other]
    let rs' := empty.constrainAll [other, high, low, other, square]
    let query : Formula := .conn .or [.cmp .lt y x, .cmp .gt y (.const 0)]
    (∀ f, f ∈ [low, square, high, other] ↔ f ∈ [other, high, low, other, square]) ∧
      rs.vars = [⟨0⟩, ⟨1⟩] ∧ rs'.vars = [⟨1⟩, ⟨0⟩] ∧
      rs.get ⟨0⟩ = ⟨.fin 5, .fin 3⟩ ∧ rs.get ⟨0⟩ = rs'.get ⟨0⟩ ∧
      (rs.prune query 9).formula = .const true ∧ rs.prune query 9 = rs'.prune query 9 := by
  intro x y low high square other rs rs' query
  have h : ∀ f, f ∈ [low, square, high, other] ↔ f ∈ [other, high, low, other, square] := by
    have hleft : ∀ f ∈ [low, square, high, other], f ∈ [other, high, low, other, square] := by
      decide
    have hright : ∀ f ∈ [other, high, low, other, square], f ∈ [low, square, high, other] := by
      decide
    exact fun f => ⟨hleft f, hright f⟩
  obtain ⟨hget, -, -, hprune⟩ := constrainAll_eq_of_mem_iff _ _ h
  exact ⟨h, by decide, by decide, by decide, hget ⟨0⟩, by decide, hprune query 9⟩

end Ranges

end IntervalPruning
