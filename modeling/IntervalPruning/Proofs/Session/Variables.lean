import IntervalPruning.Proofs.Formula.Nodes
import IntervalPruning.Proofs.Ranges.Index
import IntervalPruning.Proofs.Session.Updates
import Mathlib.Data.Set.Card

/-!
# IntervalPruning.Proofs.Session.Variables

Which variables a session knows: those of the constraints that it was told, each at the place where
it was met first (`Ranges.vars_updates`). What becomes of a constraint does not matter, neither its
route nor what the prover says to it, and queries and assumptions teach no variables.

To observe a formula counts its variables, whatever the place where they stand
(`Formula.length_freeVars`), and adds to the end of the ranges what they lack
(`Ranges.entries_prefix_observe`).
-/

namespace IntervalPruning

theorem Formula.length_freeVars (f : Formula) : f.freeVars.length = {v | f.Mentions v}.ncard := by
  have hset : {v | f.Mentions v} = ↑f.vars.toFinset := by
    ext v
    simp [mentions_iff]
  rw [hset, Set.ncard_coe_finset, freeVars, length_eraseDups]

theorem Ranges.entries_prefix_registerAll (rs : Ranges) (vs : List Var) :
    rs.entries <+: (rs.registerAll vs).entries := by
  induction vs generalizing rs with
  | nil => exact List.prefix_refl _
  | cons v vs ih =>
    refine List.IsPrefix.trans ?_ (ih (rs.register v))
    unfold register
    split
    · exact List.prefix_refl _
    · exact List.prefix_append _ _

theorem Ranges.entries_prefix_observe (rs : Ranges) (f : Formula) :
    rs.entries <+: (rs.observe f).entries := rs.entries_prefix_registerAll f.freeVars

theorem Ranges.vars_updates (calls : List Call) :
    (empty.updateAll (calls.flatMap Call.updates)).vars =
      ((constraintsOf calls).flatMap Formula.vars).eraseDups := by
  rw [vars_updateAll nodup_empty, flatMap_updates, List.map_flatMap]
  exact eraseDups_flatMap_congr Formula.eraseDups_var_updates

/-- **The ranges know exactly the variables of the constraints, once each.** After any run of an
enabled router, whatever its prover does, the variables are those of all constraints that it was told
one after the other, without repetitions and in the order of first occurrence; what comes after only
adds to the end. A list of variables and a table of intervals that are kept by the same updates hold
these variables and no others, and going through the list finds the interval of each. And for a
formula that is observed, the number of its variables is counted wherever they stand, and no interval
changes. -/
theorem Session.vars_eq_first_occurrences {σ : Type} [Prover σ] (config : Config)
    (he : config.enabled = true) (p : σ) (calls more : List Call) :
    let last := ((start config p).run calls).2
    let ranges := last.router.ranges
    let updates := calls.flatMap Call.updates
    let index := Index.empty.updateAll updates
    (ranges.vars = ((constraintsOf calls).flatMap Formula.vars).eraseDups ∧
        ranges.vars.Nodup ∧ ranges.vars <+: (last.run more).2.router.ranges.vars) ∧
      (ranges = Ranges.empty.updateAll updates ∧ index.order = ranges.vars ∧
        (∀ v, (index.table v).isSome ↔ v ∈ index.order) ∧
        index.entries? = some ranges.entries ∧ ∀ v, index.get v = ranges.get v) ∧
      ∀ (rs : Ranges) (f : Formula), f.freeVars.length = {v | f.Mentions v}.ncard ∧
        rs.entries <+: (rs.observe f).entries ∧ ∀ v, (rs.observe f).get v = rs.get v := by
  intro last ranges updates index
  have hranges : ranges = Ranges.empty.updateAll updates :=
    ranges_run_of_enabled (s := start config p) he calls
  have henabled : last.router.config.enabled = true := by
    rw [config_run]
    exact he
  have hindex : index.Represents ranges := hranges ▸ Index.represents_empty.updateAll updates
  have hnodup : ranges.vars.Nodup := hranges ▸ Ranges.nodup_updateAll Ranges.nodup_empty updates
  refine ⟨⟨?_, hnodup, ?_⟩, ⟨hranges, hindex.order, hindex.isSome_table_iff,
    hindex.entries? hnodup, hindex.get⟩,
    fun rs f => ⟨f.length_freeVars, rs.entries_prefix_observe f, rs.get_observe f⟩⟩
  · rw [hranges, Ranges.vars_updates]
  · rw [ranges_run_of_enabled henabled]
    exact ranges.vars_prefix_updateAll _

/-- A constraint that is refused, one with too many variables and one in a scope that is closed again
are all counted here. The query and the assumptions bring in no variable, and `y` is told twice. -/
theorem Session.vars_eq_first_occurrences_refused :
    let x : Term := .var ⟨0⟩
    let y : Term := .var ⟨1⟩
    let z : Term := .var ⟨2⟩
    let w : Term := .var ⟨3⟩
    let wide : Formula := .conn .or [.not (.cmp .lt y (.bin .mul z y)), .cmp .eq (.neg x) z]
    let calls : List Call := [.push, .add (.cmp .ge y (.const 5)), .pop, .add wide,
      .query (.cmp .lt w x), .isUnsatWith [.cmp .gt w y]]
    let more : List Call := [.add (.cmp .le w y)]
    let prover : ScriptedProver := { failure := some .interrupted }
    let last := ((start { maxQueryVars := 2 } prover).run calls).2
    last.router.ranges.vars = [⟨1⟩, ⟨2⟩, ⟨0⟩] ∧
      (last.run more).2.router.ranges.vars = [⟨1⟩, ⟨2⟩, ⟨0⟩, ⟨3⟩] ∧
      (Index.empty.updateAll (calls.flatMap Call.updates)).entries? =
        some [(⟨1⟩, ⟨.fin 5, .posInf⟩), (⟨2⟩, .top), (⟨0⟩, .top)] ∧
      last.router.ranges.vars = ((constraintsOf calls).flatMap Formula.vars).eraseDups ∧
      {v | wide.Mentions v}.ncard = 3 := by
  intro x y z w wide calls more prover last
  obtain ⟨⟨hvars, -⟩, -, hcount⟩ :=
    vars_eq_first_occurrences { maxQueryVars := 2 } rfl prover calls more
  exact ⟨by decide, by decide, by decide, hvars, (hcount .empty wide).1.symm⟩

end IntervalPruning
