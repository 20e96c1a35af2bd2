import IntervalPruning.Proofs.Interval.Arithmetic
import IntervalPruning.Proofs.Prune.Reduce
import IntervalPruning.Proofs.Ranges

/-!
# IntervalPruning.Proofs.Prune.Soundness

Pruning keeps the meaning: where each variable has a value in its interval, the rewritten formula
has the truth value of the query (`Term.eval_reduce`, `Formula.eval_reduce`).

`Ranges.eval_formula_prune` says it of what the ranges know. Only an interval that is not empty
restricts a variable there: an empty one is read as no knowledge, so values outside it are as good as
any.
-/

namespace IntervalPruning

section

variable {env : Var → Int} {range : Var → Interval}

namespace Term

theorem eval_reduce {t : Term} (h : ∀ v ∈ t.vars, env v ∈ range v) :
    (t.reduce range).eval env = t.eval env := by
  refine reduce_congr (eval env) (fun hs => ?_) (fun _ hs hu => ?_) fun s n hs hn => ?_
  · rw [eval, eval, hs]
  · rw [eval, eval, hs, hu]
  · have hmem := eval_mem_interval fun v hv => h v (hs hv)
    rw [hn, Interval.mem_point] at hmem
    exact hmem.symm

end Term

namespace Formula

theorem eval_negate (env : Var → Int) (f : Formula) : f.negate.eval env = !f.eval env := by
  cases f <;> rfl

/-- What a residue says about the connective it is left of. -/
def Residue.eval (env : Var → Int) (c : Connective) : Residue → Bool
  | absorbed => c.absorbing
  | kept fs => evalArgs env c fs

theorem Residue.eval_cons (env : Var → Int) (c : Connective) (f : Formula) (r : Residue) :
    (r.cons f).eval env c = if f.eval env = c.absorbing then c.absorbing else r.eval env c := by
  cases r with
  | absorbed => exact (ite_self _).symm
  | kept fs => rfl

theorem Residue.eval_toFormula (env : Var → Int) (c : Connective) (r : Residue) :
    (r.toFormula c).eval env = r.eval env c := by
  cases r with
  | absorbed => rfl
  | kept fs =>
    match fs with
    | [] => rfl
    | [f] =>
      show f.eval env = if f.eval env = c.absorbing then c.absorbing else !c.absorbing
      by_cases h : f.eval env = c.absorbing
      · rw [if_pos h, h]
      · rw [if_neg h]
        exact Bool.eq_not_of_ne h
    | _ :: _ :: _ => rfl

theorem Residue.eval_put (env : Var → Int) (c : Connective) (f : Formula) (r : Residue) :
    (r.put c f).eval env c = if f.eval env = c.absorbing then c.absorbing else r.eval env c := by
  obtain ⟨hf, hp⟩ | ⟨hf, hp⟩ | ⟨-, hp⟩ := put_cases c f r
  · rw [hp, hf]
    exact (if_pos rfl).symm
  · rw [hp, hf]
    exact (if_neg (Bool.not_ne_self _)).symm
  · rw [hp, eval_cons]

/-- Only the arguments that are read matter, and none of them costs more than all together. -/
theorem eval_reduceArgs {c : Connective} {args : List Formula}
    (h : ∀ f ∈ args, f.cost range ≤ costArgs range c args →
      (f.reduce range).eval env = f.eval env) :
    (reduceArgs range c args).eval env c = evalArgs env c args := by
  induction args with
  | nil => rfl
  | cons f fs ih =>
    have hf := h f List.mem_cons_self (Nat.le_add_right _ _)
    rw [reduceArgs_cons, Residue.eval_put, evalArgs, hf]
    by_cases hv : f.eval env = c.absorbing
    · rw [if_pos hv, if_pos hv]
    · rw [if_neg hv, if_neg hv]
      have hread : ¬ (f.reduce range).const? = some c.absorbing := fun hc => by
        rw [const?_eq_some_iff.1 hc] at hf
        exact hv hf.symm
      rw [costArgs, if_neg hread] at h
      exact ih fun g hg hcost =>
        h g (List.mem_cons_of_mem f hg) (Nat.le_trans hcost (Nat.le_add_left _ _))

theorem eval_reduce {f : Formula} (h : ∀ v ∈ f.vars, env v ∈ range v) :
    (f.reduce range).eval env = f.eval env := by
  induction f with
  | const b => rfl
  | cmp r s t =>
    have hs : ∀ v ∈ s.vars, env v ∈ range v := fun v hv => h v (List.mem_append_left _ hv)
    have ht : ∀ v ∈ t.vars, env v ∈ range v := fun v hv => h v (List.mem_append_right _ hv)
    rw [reduce]
    obtain hd | ⟨b, hd⟩ :=
      Option.eq_none_or_eq_some (r.decide? (s.interval range) (t.interval range))
    · rw [hd, Option.map_none, Option.getD_none, eval, Term.eval_reduce hs, Term.eval_reduce ht]
      rfl
    · have hv := Rel.holds_of_decide hd (Term.eval_mem_interval hs) (Term.eval_mem_interval ht)
      rw [hd, Option.map_some, Option.getD_some, eval, eval, hv]
  | not f ih => rw [reduce, eval_negate, ih h, eval]
  | conn c args ih =>
    rw [reduce, Residue.eval_toFormula, eval]
    exact eval_reduceArgs fun f hf _ => ih f hf fun v hv => h v (mem_vars_of_mem_args hf hv)

/-- A comparison costs three units at least, and without one there is nothing to get wrong. -/
theorem eval_reduce_of_cost_lt {f : Formula} (h : f.cost range < 3) :
    (f.reduce range).eval env = f.eval env := by
  induction f with
  | const b => rfl
  | cmp r s t =>
    have hs := s.size_pos
    have ht := t.size_pos
    rw [cost] at h
    omega
  | not f ih =>
    rw [cost] at h
    rw [reduce, eval_negate, ih (by omega), eval]
  | conn c args ih =>
    rw [cost] at h
    rw [reduce, Residue.eval_toFormula, eval]
    exact eval_reduceArgs fun f hf hcost => ih f hf (by omega)

theorem eval_prune {f : Formula} (h : ∀ v ∈ f.vars, env v ∈ range v) (budget : Nat) :
    (f.prune range budget).formula.eval env = f.eval env := by
  obtain ⟨-, hf⟩ | hf := formula_prune_cases range f budget
  · rw [hf, eval_reduce h]
  · rw [hf]

theorem eval_prune_of_budget_lt {budget : Nat} (h : budget < 3) (f : Formula) :
    (f.prune range budget).formula.eval env = f.eval env := by
  obtain ⟨hcost, hf⟩ | hf := formula_prune_cases range f budget
  · rw [hf, eval_reduce_of_cost_lt (Nat.lt_of_le_of_lt hcost h)]
  · rw [hf]

end Formula

end

/-- **Pruning is sound.** Where each variable of the query whose interval is not empty has a value
in it, the outcome has the truth value of the query, after a fallback or without one. -/
theorem Ranges.eval_formula_prune (rs : Ranges) (query : Formula) (budget : Nat) (env : Var → Int)
    (h : ∀ v ∈ query.freeVars, ¬ (rs.get v).IsEmpty → env v ∈ rs.get v) :
    (rs.prune query budget).formula.eval env = query.eval env := by
  refine Formula.eval_prune (fun v hv => ?_) budget
  exact mem_effective.2 (h v (Formula.mem_freeVars.2 hv))

/-- With `x` in `[0, 5]`, `y` in `[-3, +∞)` and `z` squeezed empty, `x <= y + 8` is settled, while
`z < x` is not, although no value of `z` is left. -/
theorem Ranges.eval_formula_prune_squeezed :
    let x : Var := ⟨0⟩
    let y : Var := ⟨1⟩
    let z : Var := ⟨2⟩
    let rs : Ranges := ⟨[(x, ⟨.fin 0, .fin 5⟩), (y, ⟨.fin (-3), .posInf⟩), (z, ⟨.fin 1, .fin 0⟩)]⟩
    let query : Formula := .conn .and
      [.cmp .le (.var x) (.bin .add (.var y) (.const 8)), .cmp .lt (.var z) (.var x)]
    let env : Var → Int := fun v => if v = x then 4 else 70
    (∀ v ∈ query.freeVars, ¬ (rs.get v).IsEmpty → env v ∈ rs.get v) ∧
      (rs.prune query 20).formula = .cmp .lt (.var z) (.var x) ∧
      (rs.prune query 20).formula.eval env = query.eval env := by
  intro x y z rs query env
  have h : ∀ v ∈ query.freeVars, ¬ (rs.get v).IsEmpty → env v ∈ rs.get v := by decide
  exact ⟨h, by decide, Ranges.eval_formula_prune rs query 20 env h⟩

end IntervalPruning
