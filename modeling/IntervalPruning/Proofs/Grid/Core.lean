import IntervalPruning.Grid.Prover
import IntervalPruning.Proofs.Grid.Search
import Mathlib.Logic.Function.Iterate

/-!
# IntervalPruning.Proofs.Grid.Core

The unsatisfiable cores of the grid prover are minimal (`GridProver.unsatCore_minimal`). `Deletion`
is the state of the loop that finds one: what is left of the assumptions, and the index of the next
one to be left out. One pass keeps what has been found so far (`Deletion.Shrinks.next`), and so does
the whole loop (`Deletion.shrinks_after`), which makes one pass for each assumption and ends with
what `GridProver.shrink` computes (`Deletion.ends_shrink`).

The loop does not look into the formulas. It needs a test of lists that stays true when formulas are
added, and whether a list has no solution within the radius is such a test (`upward_unsatWith`).
-/

namespace IntervalPruning

theorem eraseIdx_eraseIdx_sublist {α : Type} {as : List α} {i j : Nat} (hij : i < j)
    (hj : j < as.length) : ((as.eraseIdx j).eraseIdx i).Sublist (as.eraseIdx i) := by
  have hi : i < (as.take j).length := by
    rw [List.length_take]
    omega
  have hsplit : as.eraseIdx i = (as.take j).eraseIdx i ++ as.drop j := by
    rw [← List.eraseIdx_append_of_lt_length hi, List.take_append_drop]
  rw [hsplit, List.eraseIdx_eq_take_drop_succ as j, List.eraseIdx_append_of_lt_length hi]
  exact (List.drop_sublist_drop_left as (Nat.le_succ j)).append_left _

/-! ## The loop -/

/-- A test that stays true when formulas are added. -/
def Upward (unsat : List Formula → Bool) : Prop :=
  ∀ ⦃fs gs : List Formula⦄, fs.Sublist gs → unsat fs = true → unsat gs = true

structure Deletion where
  core : List Formula
  index : Nat

namespace Deletion

variable {unsat : List Formula → Bool} {fs : List Formula} {d : Deletion}

/-- One pass: the formula at the index is left out for good, or it is kept and passed over. -/
def next (unsat : List Formula → Bool) (d : Deletion) : Deletion :=
  if unsat (d.core.eraseIdx d.index) then { d with core := d.core.eraseIdx d.index }
  else { d with index := d.index + 1 }

def after (unsat : List Formula → Bool) (fs : List Formula) (passes : Nat) : Deletion :=
  (next unsat)^[passes] ⟨fs, 0⟩

/-- What has been found so far: no formula before the index can be left out. -/
structure Shrinks (unsat : List Formula → Bool) (fs : List Formula) (d : Deletion) : Prop where
  sublist : d.core.Sublist fs
  unsat_core : unsat d.core = true
  needed : ∀ i < d.index, unsat (d.core.eraseIdx i) = false

theorem Shrinks.next (hup : Upward unsat) (h : Shrinks unsat fs d)
    (hindex : d.index < d.core.length) : Shrinks unsat fs (d.next unsat) := by
  rw [Deletion.next]
  split
  · rename_i hunsat
    refine ⟨(List.eraseIdx_sublist d.core d.index).trans h.sublist, hunsat, ?_⟩
    intro i hi
    have hneeded := h.needed i hi
    rw [Bool.eq_false_iff] at hneeded ⊢
    exact fun hrest => hneeded (hup (eraseIdx_eraseIdx_sublist hi hindex) hrest)
  · rename_i hsat
    refine ⟨h.sublist, h.unsat_core, ?_⟩
    intro i hi
    rcases Nat.lt_succ_iff_lt_or_eq.1 hi with hi | rfl
    · exact h.needed i hi
    · exact Bool.eq_false_iff.2 hsat

/-- Each pass deals with one formula. -/
theorem length_next {n : Nat} (h : d.core.length = d.index + (n + 1)) :
    (d.next unsat).core.length = (d.next unsat).index + n := by
  have hindex : d.index < d.core.length := by omega
  rw [next]
  split
  · simp only [List.length_eraseIdx_of_lt hindex]
    omega
  · simp only
    omega

theorem length_after (unsat : List Formula → Bool) {passes : Nat} (h : passes ≤ fs.length) :
    (after unsat fs passes).core.length =
      (after unsat fs passes).index + (fs.length - passes) := by
  induction passes with
  | zero => simp [after]
  | succ passes ih =>
    have hopen : fs.length - passes = fs.length - (passes + 1) + 1 := by omega
    have hlength := ih (by omega)
    rw [hopen] at hlength
    rw [after, Function.iterate_succ_apply']
    exact length_next hlength

theorem index_lt_after {passes : Nat} (h : passes < fs.length) :
    (after unsat fs passes).index < (after unsat fs passes).core.length := by
  have hlength := length_after unsat (Nat.le_of_lt h)
  omega

theorem shrinks_after (hup : Upward unsat) (hunsat : unsat fs = true) {passes : Nat}
    (h : passes ≤ fs.length) : Shrinks unsat fs (after unsat fs passes) := by
  induction passes with
  | zero =>
    refine ⟨List.Sublist.refl fs, hunsat, ?_⟩
    intro i hi
    cases hi
  | succ passes ih =>
    rw [after, Function.iterate_succ_apply']
    exact (ih (by omega)).next hup (index_lt_after h)

/-- The formulas that `shrink` has kept are those before the index, and those that it still has to go
through stand behind them. -/
theorem iterate_next (unsat : List Formula → Bool) (kept fs : List Formula) :
    ((next unsat)^[fs.length] ⟨kept ++ fs, kept.length⟩).core =
      GridProver.shrink unsat kept fs := by
  induction fs generalizing kept with
  | nil => simp [GridProver.shrink]
  | cons f fs ih =>
    have herase : (kept ++ f :: fs).eraseIdx kept.length = kept ++ fs := by
      simp [List.eraseIdx_append_of_length_le]
    rw [List.length_cons, Function.iterate_succ_apply, next, herase, GridProver.shrink]
    split
    · exact ih kept
    · have hkept := ih (kept ++ [f])
      rw [List.append_assoc, List.length_append] at hkept
      exact hkept

/-- The loop goes on for one pass for each formula, and then it has gone through all of `core`. -/
structure Ends (unsat : List Formula → Bool) (fs core : List Formula) : Prop where
  runs : ∀ passes < fs.length,
    (after unsat fs passes).index < (after unsat fs passes).core.length
  stops : after unsat fs fs.length = ⟨core, core.length⟩

theorem ends_shrink (unsat : List Formula → Bool) (fs : List Formula) :
    Ends unsat fs (GridProver.shrink unsat [] fs) := by
  refine ⟨fun passes h => index_lt_after h, ?_⟩
  have hcore : (after unsat fs fs.length).core = GridProver.shrink unsat [] fs :=
    iterate_next unsat [] fs
  have hlength := length_after unsat (Nat.le_refl fs.length)
  rw [Nat.sub_self, Nat.add_zero] at hlength
  rw [← hcore, hlength]

end Deletion

/-! ## Cores -/

namespace Grid

theorem Satisfiable.mono {radius : Int} {fs gs : List Formula} (hsub : fs ⊆ gs)
    (h : Satisfiable radius gs) : Satisfiable radius fs := by
  obtain ⟨env, hwithin, hmodels⟩ := h
  refine ⟨env, ?_, fun f hf => hmodels f (hsub hf)⟩
  intro v hv
  obtain ⟨f, hf, hvf⟩ := mem_order.1 hv
  exact hwithin v (mem_order.2 ⟨f, hsub hf, hvf⟩)

end Grid

namespace GridProver

variable {p : GridProver} {fs : List Formula}

theorem unsatWith_eq_false :
    p.unsatWith fs = false ↔ Grid.Satisfiable p.radius (p.asserted ++ fs) := by
  rw [unsatWith, solve, ← Option.not_isSome, Bool.not_eq_false', Grid.solve_isSome_iff]

theorem unsatWith_eq_true :
    p.unsatWith fs = true ↔ ¬ Grid.Satisfiable p.radius (p.asserted ++ fs) := by
  rw [← unsatWith_eq_false, Bool.not_eq_false]

theorem upward_unsatWith (p : GridProver) : Upward p.unsatWith := by
  intro fs gs hsub hunsat
  rw [unsatWith_eq_true] at hunsat ⊢
  exact fun hsat => hunsat (hsat.mono (hsub.append_left p.asserted).subset)

/-- Some of the assumptions, in their order, that cannot hold together with what is asserted, while
any of them can be left out to change that. -/
structure IsMinimalCore (p : GridProver) (assumptions core : List Formula) : Prop where
  sublist : core.Sublist assumptions
  unsat : ¬ Grid.Satisfiable p.radius (p.asserted ++ core)
  needed : ∀ i < core.length, Grid.Satisfiable p.radius (p.asserted ++ core.eraseIdx i)

theorem isMinimalCore_shrink (h : p.unsatWith fs = true) :
    IsMinimalCore p fs (shrink p.unsatWith [] fs) := by
  have hshrinks := Deletion.shrinks_after p.upward_unsatWith h (Nat.le_refl fs.length)
  rw [(Deletion.ends_shrink p.unsatWith fs).stops] at hshrinks
  refine ⟨hshrinks.sublist, unsatWith_eq_true.1 hshrinks.unsat_core, ?_⟩
  exact fun i hi => unsatWith_eq_false.1 (hshrinks.needed i hi)

/-- **Cores are minimal.** There is none exactly if the asserted formulas and all assumptions can
hold together. A core is found by a loop that ends, and asking for one leaves the prover as it
was. -/
theorem unsatCore_minimal (p : GridProver) (assumptions : List Formula) :
    ∃ answer, Prover.unsatCore p assumptions = .ok answer p ∧
      (answer = none ↔ Grid.Satisfiable p.radius (p.asserted ++ assumptions)) ∧
      ∀ core, answer = some core →
        IsMinimalCore p assumptions core ∧ Deletion.Ends p.unsatWith assumptions core := by
  refine ⟨p.core? assumptions, rfl, ?_, ?_⟩
  · rw [← unsatWith_eq_false, core?]
    cases p.unsatWith assumptions with
    | true => simp
    | false => simp
  · intro core hcore
    obtain ⟨hunsat, hcore⟩ := Option.ite_none_right_eq_some.1 hcore
    cases hcore
    exact ⟨isMinimalCore_shrink hunsat, Deletion.ends_shrink p.unsatWith assumptions⟩

/-- Of two assumptions that are the same, one is enough. -/
example :
    let x : Term := .var ⟨0⟩
    let low : Formula := .cmp .lt x (.const 1)
    let high : Formula := .cmp .ge x (.const 1)
    ({ radius := 2 } : GridProver).core? [low, high, low, .cmp .eq x x] = some [high, low] := by
  decide

end GridProver

end IntervalPruning
