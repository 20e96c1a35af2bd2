import IntervalPruning.Proofs.Prune.Soundness
import IntervalPruning.Proofs.Router.Outcome

/-!
# IntervalPruning.Proofs.Router

What a router does with one formula, read off what can become of it:

* `config_add`, `config_query`: the configuration stays;
* `get_add_of_not_narrows`, `ranges_query`: intervals change on one way only, that of a single
  variable with a bound (`Router.narrows`), and there the formula is asserted as it is
  (`assertion_add_of_narrows`);
* `eval_assertion_add`, `eval_assertion_query`: where pruning does no harm (`Router.Preserves`), as
  under all assignments that the ranges admit, the assertion has the truth value of the formula;
* `admits_add`: an assignment that satisfies the formulas that narrow is still admitted.

A formula can narrow and yet leave all intervals as they are, if it says nothing new;
`Router.shrinks` tells those apart.
-/

namespace IntervalPruning

namespace Router

/-- The formula is used to narrow an interval. -/
def narrows (r : Router) (f : Formula) : Bool :=
  decide (r.config.route f.freeVars.length = .single) && f.bound?.isSome

/-- Some interval is not what it was. Only variables of the formula come into question. -/
def shrinks (r : Router) (f : Formula) : Bool :=
  f.freeVars.any fun v => (r.add f).router.ranges.get v ≠ r.ranges.get v

/-- Pruning leaves every truth value under the assignment as it is. -/
def Preserves (r : Router) (env : Var → Int) : Prop :=
  ∀ f, (r.ranges.prune f r.config.pruneBudget).formula.eval env = f.eval env

theorem preserves_of_admits {r : Router} {env : Var → Int} (h : r.ranges.Admits env) :
    r.Preserves env := fun _ => Formula.eval_prune (fun v _ => h v) _

theorem preserves_of_budget_lt {r : Router} (h : r.config.pruneBudget < 3) (env : Var → Int) :
    r.Preserves env := fun f => Formula.eval_prune_of_budget_lt h f

theorem Preserves.eval_reduce {r : Router} {env : Var → Int} (h : r.Preserves env) {f : Formula}
    (hc : f.cost r.ranges.effective ≤ r.config.pruneBudget) :
    (f.reduce r.ranges.effective).eval env = f.eval env := by
  have hf := h f
  rw [Ranges.prune, Formula.prune_of_cost_le hc] at hf
  exact hf

theorem narrows_iff {r : Router} {f : Formula} :
    r.narrows f = true ↔
      r.config.enabled = true ∧ f.freeVars.length = 1 ∧ f.bound?.isSome = true := by
  rw [narrows, Bool.and_eq_true, decide_eq_true_eq, ← and_assoc]
  refine and_congr_left fun _ => ?_
  unfold Config.route
  cases r.config.enabled with
  | false => simp
  | true =>
    by_cases hn : f.freeVars.length = 1
    · simp [hn]
    · by_cases hmax : f.freeVars.length ≤ r.config.maxQueryVars
      · simp [hn, hmax]
      · simp [hn, hmax]

section Outcomes

variable {r : Router} {f : Formula} {out : Routed} {env : Var → Int}

namespace QueryOutcome

theorem config (ho : r.QueryOutcome f out) : out.router.config = r.config := by
  cases ho <;> rfl

theorem ranges (ho : r.QueryOutcome f out) : out.router.ranges = r.ranges := by
  cases ho <;> rfl

theorem assertion_of_enabled (ho : r.QueryOutcome f out) (he : r.config.enabled = true) :
    out.assertion = (r.ranges.prune f r.config.pruneBudget).formula := by
  rw [Ranges.prune, Formula.prune_eq]
  cases ho with
  | off hoff => exact absurd (hoff.symm.trans he) Bool.false_ne_true
  | solved _ hc => rw [if_pos hc]
  | exhausted _ hc => rw [if_neg (Nat.not_le_of_gt hc)]

theorem eval_assertion (ho : r.QueryOutcome f out) (h : r.Preserves env) :
    out.assertion.eval env = f.eval env := by
  cases ho with
  | solved _ hc => exact h.eval_reduce hc
  | off _ => rfl
  | exhausted _ _ => rfl

end QueryOutcome

namespace AddOutcome

theorem config (ho : r.AddOutcome f out) : out.router.config = r.config := by
  cases ho <;> rfl

theorem of_narrows (ho : r.AddOutcome f out) (h : r.narrows f = true) :
    out.router.ranges = (r.ranges.observe f).constrain f ∧ out.assertion = f := by
  obtain ⟨he, hn, hb⟩ := narrows_iff.1 h
  cases ho with
  | tracked _ _ _ => exact ⟨rfl, rfl⟩
  | off hoff => exact absurd (hoff.symm.trans he) Bool.false_ne_true
  | untracked _ _ hb' => exact absurd hb hb'
  | solved _ hn' _ _ => exact absurd hn hn'
  | exhausted _ hn' _ _ => exact absurd hn hn'
  | wide _ hn' _ => exact absurd hn hn'

theorem get_of_not_narrows (ho : r.AddOutcome f out) (h : r.narrows f = false) (v : Var) :
    out.router.ranges.get v = r.ranges.get v := by
  cases ho with
  | off _ => rfl
  | tracked he hn hb => exact absurd (narrows_iff.2 ⟨he, hn, hb⟩) (Bool.eq_false_iff.1 h)
  | untracked _ _ _ => exact Ranges.get_observe r.ranges f v
  | solved _ _ _ _ => exact Ranges.get_observe r.ranges f v
  | exhausted _ _ _ _ => exact Ranges.get_observe r.ranges f v
  | wide _ _ _ => exact Ranges.get_observe r.ranges f v

theorem eval_assertion (ho : r.AddOutcome f out) (h : r.Preserves env) :
    out.assertion.eval env = f.eval env := by
  cases ho with
  | solved _ _ _ hc => exact h.eval_reduce hc
  | off _ => rfl
  | tracked _ _ _ => rfl
  | untracked _ _ _ => rfl
  | exhausted _ _ _ _ => rfl
  | wide _ _ _ => rfl

end AddOutcome

end Outcomes

/-! ## Queries -/

theorem ranges_query (r : Router) (f : Formula) : (r.query f).router.ranges = r.ranges :=
  (r.query_outcome f).ranges

@[simp] theorem config_query (r : Router) (f : Formula) : (r.query f).router.config = r.config :=
  (r.query_outcome f).config

theorem assertion_query_of_enabled {r : Router} (h : r.config.enabled = true) (f : Formula) :
    (r.query f).assertion = (r.ranges.prune f r.config.pruneBudget).formula :=
  (r.query_outcome f).assertion_of_enabled h

theorem eval_assertion_query {r : Router} {env : Var → Int} (h : r.Preserves env)
    (f : Formula) : (r.query f).assertion.eval env = f.eval env :=
  (r.query_outcome f).eval_assertion h

/-! ## Constraints -/

@[simp] theorem config_add (r : Router) (f : Formula) : (r.add f).router.config = r.config :=
  (r.add_outcome f).config

theorem ranges_add_of_narrows {r : Router} {f : Formula} (h : r.narrows f = true) :
    (r.add f).router.ranges = (r.ranges.observe f).constrain f :=
  ((r.add_outcome f).of_narrows h).1

theorem assertion_add_of_narrows {r : Router} {f : Formula} (h : r.narrows f = true) :
    (r.add f).assertion = f :=
  ((r.add_outcome f).of_narrows h).2

theorem get_add_of_not_narrows {r : Router} {f : Formula} (h : r.narrows f = false) (v : Var) :
    (r.add f).router.ranges.get v = r.ranges.get v :=
  (r.add_outcome f).get_of_not_narrows h v

theorem eval_assertion_add {r : Router} {env : Var → Int} (h : r.Preserves env)
    (f : Formula) : (r.add f).assertion.eval env = f.eval env :=
  (r.add_outcome f).eval_assertion h

theorem narrows_of_shrinks {r : Router} {f : Formula} (h : r.shrinks f = true) :
    r.narrows f = true := by
  rw [← Bool.not_eq_false]
  intro hn
  obtain ⟨v, -, hv⟩ := List.any_eq_true.1 h
  rw [decide_eq_true_eq] at hv
  exact hv (get_add_of_not_narrows hn v)

theorem get_constrain_of_not_mem {rs : Ranges} {f : Formula} {v : Var} (h : v ∉ f.freeVars) :
    (rs.constrain f).get v = rs.get v := by
  unfold Ranges.constrain
  split
  · rename_i w i hb
    rw [Formula.freeVars_of_bound hb, List.mem_singleton] at h
    exact Ranges.get_narrow_of_ne rs i h
  · rfl

theorem get_add_of_not_shrinks {r : Router} {f : Formula} (h : r.shrinks f = false) (v : Var) :
    (r.add f).router.ranges.get v = r.ranges.get v := by
  by_cases hv : v ∈ f.freeVars
  · have hall := List.any_eq_false.1 h v hv
    simpa using hall
  · by_cases hn : r.narrows f = true
    · rw [ranges_add_of_narrows hn, get_constrain_of_not_mem hv, Ranges.get_observe]
    · exact get_add_of_not_narrows (Bool.eq_false_iff.2 hn) v

theorem admits_add {r : Router} {env : Var → Int} {f : Formula} (h : r.ranges.Admits env)
    (hf : r.narrows f = true → f.eval env = true) : (r.add f).router.ranges.Admits env := by
  by_cases hn : r.narrows f = true
  · rw [ranges_add_of_narrows hn]
    refine Ranges.admits_constrain ?_ fun _ => hf hn
    exact (Ranges.admits_congr (Ranges.get_observe r.ranges f)).2 h
  · exact (Ranges.admits_congr (get_add_of_not_narrows (Bool.eq_false_iff.2 hn))).2 h

theorem proper_add {r : Router} (h : r.ranges.Proper) (f : Formula) :
    (r.add f).router.ranges.Proper := by
  by_cases hn : r.narrows f = true
  · rw [ranges_add_of_narrows hn]
    exact Ranges.proper_constrain ((Ranges.proper_congr (Ranges.get_observe r.ranges f)).2 h) f
  · exact (Ranges.proper_congr (get_add_of_not_narrows (Bool.eq_false_iff.2 hn))).2 h

end Router

end IntervalPruning
