import IntervalPruning.Proofs.Prune.Normal
import IntervalPruning.Proofs.Prune.Soundness

/-!
# IntervalPruning.Proofs.Prune.Terms

Pruning a term and calculating its interval go through the tree on their own, one rewriting it on the
way and paying for each node, the other reading it as it is. They find the same interval, and it is
that of the rewritten term as well. The rewritten term is a constant exactly if this interval is a
point (`Term.reduce_eq_const_iff`).

`Ranges.term_prune_agrees` puts this together with the budget and with the values of the term.
-/

namespace IntervalPruning

namespace Term

theorem isSome_prune?_iff {range : Var → Interval} {t : Term} {budget : Nat} :
    (t.prune? range budget).isSome ↔ t.size ≤ budget := by
  rw [prune?_eq]
  exact isSome_pay

theorem prune?_eq_some_iff {range : Var → Interval} {t s : Term} {i : Interval}
    {budget rest : Nat} :
    t.prune? range budget = some ((s, i), rest) ↔
      (s = t.reduce range ∧ i = t.interval range) ∧ budget = t.size + rest := by
  rw [prune?_eq, pay_eq_some_iff, Prod.mk.injEq]

end Term

namespace Ranges

/-- **Pruning a term finds its interval.** There is an outcome exactly if the budget covers the size of
the term, and it costs one unit for each node. The interval is the one that the term has, and the one
that the rewritten term has. The rewritten term is a constant exactly if the interval is the point of
this constant. Where each variable of the term whose interval is not empty has a value in it, the
rewritten term has the value of the term, and the interval contains it. -/
theorem term_prune_agrees (rs : Ranges) (t : Term) (budget : Nat) :
    ((t.prune? rs.effective budget).isSome ↔ t.size ≤ budget) ∧
      ∀ s i rest, t.prune? rs.effective budget = some ((s, i), rest) →
        rest = budget - t.size ∧
          (i = rs.termInterval t ∧ i = rs.termInterval s) ∧
          (∀ n, s = .const n ↔ i = .point n) ∧
          ∀ env, (∀ v ∈ t.vars, ¬ (rs.get v).IsEmpty → env v ∈ rs.get v) →
            s.eval env = t.eval env ∧ t.eval env ∈ i := by
  refine ⟨Term.isSome_prune?_iff, ?_⟩
  intro s i rest h
  obtain ⟨⟨rfl, rfl⟩, hbudget⟩ := Term.prune?_eq_some_iff.1 h
  refine ⟨by omega, ⟨rfl, ?_⟩, fun n => Term.reduce_eq_const_iff, ?_⟩
  · exact (Term.interval_reduce rs.effective t).symm
  · intro env henv
    have hmem : ∀ v ∈ t.vars, env v ∈ rs.effective v := fun v hv => mem_effective.2 (henv v hv)
    exact ⟨Term.eval_reduce hmem, Term.eval_mem_interval hmem⟩

/-- With `x = 3`, `y` in `[0, +∞)` and `z` squeezed empty: no value of `z` is left, so it may have any,
and still `z * 0` is zero. Of the nine nodes of `x * 2 - z * 0 + y` three stay. -/
theorem term_prune_agrees_folded :
    let x : Var := ⟨0⟩
    let y : Var := ⟨1⟩
    let z : Var := ⟨2⟩
    let rs : Ranges := ⟨[(x, .point 3), (y, ⟨.fin 0, .posInf⟩), (z, ⟨.fin 1, .fin 0⟩)]⟩
    let product : Term := .bin .mul (.var z) (.const 0)
    let t : Term := .bin .add (.bin .sub (.bin .mul (.var x) (.const 2)) product) (.var y)
    let s : Term := .bin .add (.const 6) (.var y)
    let i : Interval := ⟨.fin 6, .posInf⟩
    let env : Var → Int := fun v => if v = x then 3 else if v = y then 8 else -41
    ¬ (t.prune? rs.effective 8).isSome ∧ t.prune? rs.effective 12 = some ((s, i), 3) ∧
      rs.termInterval t = i ∧ rs.termInterval s = i ∧ (∀ n, s = .const n ↔ i = .point n) ∧
      (∀ v ∈ t.vars, ¬ (rs.get v).IsEmpty → env v ∈ rs.get v) ∧
      s.eval env = t.eval env ∧ t.eval env ∈ i := by
  intro x y z rs product t s i env
  have hshort : ¬ (t.prune? rs.effective 8).isSome := fun h =>
    absurd ((term_prune_agrees rs t 8).1.1 h) (by decide)
  have hprune : t.prune? rs.effective 12 = some ((s, i), 3) := by decide
  have henv : ∀ v ∈ t.vars, ¬ (rs.get v).IsEmpty → env v ∈ rs.get v := by decide
  obtain ⟨-, ⟨ht, hs⟩, hconst, heval⟩ := (term_prune_agrees rs t 12).2 s i 3 hprune
  exact ⟨hshort, hprune, ht.symm, hs.symm, hconst, henv, heval env henv⟩

end Ranges

end IntervalPruning
