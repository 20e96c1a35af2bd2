import IntervalPruning.Proofs.Interval.Verdict
import IntervalPruning.Proofs.Prune.Size
import IntervalPruning.Proofs.Ranges

/-!
# IntervalPruning.Proofs.Prune.Known

Where every variable is known, calculating with intervals is calculating with integers: an operation
on points gives a point (`Interval.apply_point`), two points settle every relation
(`Rel.decide?_point`), and the interval of a term is the point of its value
(`Term.interval_eq_point`). So a reduced formula is its truth value (`Formula.reduce_eq_const`);
of a connective nothing is left but the value that its arguments give it
(`Formula.reduceArgs_eq_of_const`).

`Ranges.prune_eq_eval_of_known` says it of pruning. A query without variables is known whatever the
ranges are.
-/

namespace IntervalPruning

namespace Interval

@[simp] theorem point_mul_point (m n : Int) : point m * point n = point (m * n) := by
  show (⟨min (min (min _ _) _) _, max (max (max _ _) _) _⟩ : Interval) = _
  simp only [point, ExtInt.fin_mul_fin, min_self, max_self]

theorem apply_point (op : Arith) (m n : Int) :
    op.apply (point m) (point n) = point (op.apply m n) := by
  cases op with
  | add => exact point_add_point m n
  | sub => exact point_sub_point m n
  | mul => exact point_mul_point m n

end Interval

theorem Rel.decide?_point (r : Rel) (m n : Int) :
    r.decide? (.point m) (.point n) = some (r.holds m n) := by
  refine (decide?_of_members ⟨m, Interval.mem_point.2 rfl⟩ ⟨n, Interval.mem_point.2 rfl⟩).2 ?_
  intro k hk l hl
  rw [Interval.mem_point.1 hk, Interval.mem_point.1 hl]

section

variable {env : Var → Int} {range : Var → Interval}

theorem Term.interval_eq_point {t : Term} (h : ∀ v ∈ t.vars, range v = .point (env v)) :
    t.interval range = .point (t.eval env) := by
  induction t with
  | var v => exact h v (List.mem_singleton_self v)
  | const n => rfl
  | neg t ih => rw [interval, ih h, Interval.neg_point, eval]
  | bin op s t ihs iht =>
    have hs := ihs fun v hv => h v (List.mem_append_left _ hv)
    have ht := iht fun v hv => h v (List.mem_append_right _ hv)
    rw [interval, hs, ht, Interval.apply_point, eval]

namespace Formula

/-- An argument that settles the connective ends the reading on both sides, and the others are
dropped. -/
theorem reduceArgs_eq_of_const {c : Connective} {args : List Formula}
    (h : ∀ f ∈ args, f.reduce range = const (f.eval env)) :
    reduceArgs range c args =
      if evalArgs env c args = c.absorbing then .absorbed else .kept [] := by
  induction args with
  | nil => exact (if_neg (Bool.not_ne_self c.absorbing)).symm
  | cons f fs ih =>
    have hfs := ih fun g hg => h g (List.mem_cons_of_mem f hg)
    rw [reduceArgs_cons, h f List.mem_cons_self, evalArgs]
    by_cases hv : f.eval env = c.absorbing
    · rw [if_pos hv, if_pos rfl, hv]
      exact Residue.put_of_absorbing rfl _
    · rw [if_neg hv, ← hfs, Residue.put, const?]
      exact if_neg hv

theorem reduce_eq_const {f : Formula} (h : ∀ v ∈ f.vars, range v = .point (env v)) :
    f.reduce range = const (f.eval env) := by
  induction f with
  | const b => rfl
  | cmp r s t =>
    have hs := Term.interval_eq_point fun v hv => h v (List.mem_append_left t.vars hv)
    have ht := Term.interval_eq_point fun v hv => h v (List.mem_append_right s.vars hv)
    rw [reduce, hs, ht, Rel.decide?_point, eval]
    rfl
  | not f ih => rw [reduce, ih h, negate, eval]
  | conn c args ih =>
    have hargs := reduceArgs_eq_of_const (c := c) fun f hf =>
      ih f hf fun v hv => h v (mem_vars_of_mem_args hf hv)
    rw [reduce, hargs, eval]
    by_cases hv : evalArgs env c args = c.absorbing
    · rw [if_pos hv, hv, Residue.toFormula]
    · rw [if_neg hv, Bool.eq_not_of_ne hv, Residue.toFormula]

end Formula

end

namespace Ranges

theorem effective_eq_point {rs : Ranges} {v : Var} {n : Int} (h : rs.get v = .point n) :
    rs.effective v = .point n := by
  have hn : n ∈ rs.get v := h ▸ Interval.mem_point.2 rfl
  rw [effective_of_mem hn, h]

/-- **Pruning evaluates what is known.** Where each variable of the query has a single value left,
a budget of the size of the query is enough, and the outcome is the truth value that the query has
for these values. -/
theorem prune_eq_eval_of_known (rs : Ranges) (query : Formula) (budget : Nat) (env : Var → Int)
    (h : ∀ v ∈ query.freeVars, rs.get v = .point (env v)) (hb : query.size ≤ budget) :
    (rs.prune query budget).fellBack = false ∧
      (rs.prune query budget).formula = .const (query.eval env) := by
  have hknown : ∀ v ∈ query.vars, rs.effective v = .point (env v) :=
    fun v hv => effective_eq_point (h v (Formula.mem_freeVars.2 hv))
  have hcost := (Formula.cost_le_size rs.effective query).trans hb
  have hprune : rs.prune query budget = _ := Formula.prune_of_cost_le hcost
  rw [hprune]
  exact ⟨rfl, Formula.reduce_eq_const hknown⟩

/-- With `x = -2` and `y = 7`: `x * y < x - 12` is false, an empty `or` is false, and so the negation
in front of the two makes `and` depend on the ground comparison, which is true. -/
theorem prune_eq_eval_of_known_nested :
    let x : Var := ⟨0⟩
    let y : Var := ⟨1⟩
    let rs : Ranges := ⟨[(x, .point (-2)), (y, .point 7), (⟨2⟩, ⟨.fin 0, .posInf⟩)]⟩
    let product : Formula := .cmp .lt (.bin .mul (.var x) (.var y)) (.bin .sub (.var x) (.const 12))
    let query : Formula := .conn .and
      [.not (.conn .or [product, .conn .or []]), .cmp .eq (.const 3) (.neg (.const (-3)))]
    let env : Var → Int := fun v => if v = x then -2 else 7
    (∀ v ∈ query.freeVars, rs.get v = .point (env v)) ∧ query.size ≤ 15 ∧
      query.eval env = true ∧
      (rs.prune query 15).fellBack = false ∧ (rs.prune query 15).formula = .const true := by
  intro x y rs product query env
  have h : ∀ v ∈ query.freeVars, rs.get v = .point (env v) := by decide
  have hb : query.size ≤ 15 := by decide
  exact ⟨h, hb, by decide, prune_eq_eval_of_known rs query 15 env h hb⟩

end Ranges

end IntervalPruning
