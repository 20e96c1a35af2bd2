import IntervalPruning.Proofs.Formula.Models
import IntervalPruning.Proofs.Session.Relay

/-!
# IntervalPruning.Proofs.Session.Exact

The intervals of an enabled router are exact. `boundsOn fs v` are the constraints of a list that
bound the variable `v`, and `Ranges.Exact rs fs` says of the ranges and of all constraints so far
that the interval of each variable holds the solutions of the bounds on it, all of them and nothing
else. A bound is intersected into one interval (`Ranges.Exact.constrain`), and no other constraint
touches any (`Ranges.Exact.concat`), whichever way it takes (`Ranges.Exact.add`).

`Session.mem_get_iff_bounds` says it of whole sessions. Nothing undoes a bound: neither a prover
that refuses the constraint nor the end of the scope in which it was told.
-/

namespace IntervalPruning

/-- The formula is about this variable alone, and says in which interval its value lies. -/
def Formula.Bounds (f : Formula) (v : Var) : Prop := f.freeVars = [v] ∧ f.bound?.isSome

instance (f : Formula) (v : Var) : Decidable (f.Bounds v) := inferInstanceAs (Decidable (_ ∧ _))

def boundsOn (fs : List Formula) (v : Var) : List Formula := fs.filter (·.Bounds v)

theorem models_boundsOn_concat {env : Var → Int} {fs : List Formula} {f : Formula} {v : Var} :
    Models env (boundsOn (fs ++ [f]) v) ↔
      Models env (boundsOn fs v) ∧ (f.Bounds v → f.eval env = true) := by
  rw [boundsOn, List.filter_append, models_append]
  refine and_congr_right fun _ => ?_
  by_cases hf : f.Bounds v
  · rw [List.filter_cons_of_pos (by simpa using hf), List.filter_nil, models_singleton]
    exact ⟨fun h _ => h, fun h => h hf⟩
  · rw [List.filter_cons_of_neg (by simpa using hf), List.filter_nil]
    exact iff_of_true models_nil fun h => absurd h hf

namespace Ranges

structure Exact (rs : Ranges) (fs : List Formula) : Prop where
  mem_get : ∀ (v : Var) (env : Var → Int), env v ∈ rs.get v ↔ Models env (boundsOn fs v)
  proper : rs.Proper
  nodup : rs.vars.Nodup

namespace Exact

variable {rs : Ranges} {fs : List Formula} {f : Formula}

theorem start : Exact .empty [] where
  mem_get _ _ := iff_of_true (Interval.mem_top _) models_nil
  proper := proper_empty
  nodup := List.nodup_nil

theorem observe (h : Exact rs fs) (f : Formula) : Exact (rs.observe f) fs where
  mem_get v env := by
    rw [get_observe]
    exact h.mem_get v env
  proper := (proper_congr (get_observe rs f)).2 h.proper
  nodup := nodup_registerAll h.nodup _

/-- A formula that bounds no variable adds nothing to what is known. -/
theorem concat (h : Exact rs fs) (hf : ∀ v, ¬ f.Bounds v) : Exact rs (fs ++ [f]) where
  mem_get v env := by
    rw [models_boundsOn_concat, h.mem_get]
    exact (and_iff_left fun hv => absurd hv (hf v)).symm
  proper := h.proper
  nodup := h.nodup

theorem constrain (h : Exact rs fs) (hf : f.bound?.isSome) :
    Exact (rs.constrain f) (fs ++ [f]) where
  mem_get v env := by
    obtain ⟨⟨w, i⟩, hb⟩ := Option.isSome_iff_exists.1 hf
    have hvars := Formula.freeVars_of_bound hb
    rw [models_boundsOn_concat, ← h.mem_get, Ranges.constrain, hb]
    show env v ∈ (rs.narrow w i).get v ↔ _
    rw [get_narrow]
    by_cases hv : v = w
    · have hbounds : f.Bounds v := ⟨hv ▸ hvars, hf⟩
      rw [if_pos hv, Interval.mem_inter, forall_prop_of_true hbounds, hv, Formula.mem_bound hb env]
    · have hbounds : ¬ f.Bounds v := fun hv' => hv (List.cons.inj (hv'.1.symm.trans hvars)).1
      rw [if_neg hv]
      exact (and_iff_left fun h => absurd h hbounds).symm
  proper := proper_constrain h.proper f
  nodup := nodup_constrain h.nodup f

theorem add {r : Router} {out : Routed} (h : Exact r.ranges fs) (he : r.config.enabled = true)
    (ho : r.AddOutcome f out) : Exact out.router.ranges (fs ++ [f]) := by
  have hmany (hn : f.freeVars.length ≠ 1) (v : Var) : ¬ f.Bounds v := fun hv =>
    hn (congrArg List.length hv.1)
  cases ho with
  | off hoff => exact absurd (hoff.symm.trans he) Bool.false_ne_true
  | tracked _ _ hb => exact (h.observe f).constrain hb
  | untracked _ _ hb => exact (h.observe f).concat fun _ hv => hb hv.2
  | solved _ hn _ _ => exact (h.observe f).concat (hmany hn)
  | exhausted _ hn _ _ => exact (h.observe f).concat (hmany hn)
  | wide _ hn _ => exact (h.observe f).concat (hmany hn)

theorem after {r : Router} (h : Exact r.ranges fs) (he : r.config.enabled = true) (c : Call) :
    Exact (r.after c).ranges (fs ++ c.constraint?.toList) := by
  cases c with
  | add f => exact h.add he (r.add_outcome f)
  | query f =>
    show Exact (r.query f).router.ranges (fs ++ [])
    rw [Router.ranges_query, List.append_nil]
    exact h
  | _ =>
    simp only [Call.constraint?, Option.toList_none, List.append_nil]
    exact h

theorem run {r : Router} (h : Exact r.ranges []) (he : r.config.enabled = true)
    (calls : List Call) : Exact (r.afterAll calls).ranges (constraintsOf calls) := by
  refine Router.afterAll_induction (motive := fun cs s => Exact s.ranges (constraintsOf cs)) h
    (fun cs c s hs hcs => ?_) calls
  rw [constraintsOf_concat]
  exact hcs.after ((congrArg Config.enabled hs).trans he) c

/-- A variable has no value left exactly if the bounds on it have no common solution. -/
theorem isEmpty_get_iff (h : Exact rs fs) (v : Var) :
    (rs.get v).IsEmpty ↔ ∀ env, ¬ Models env (boundsOn fs v) := by
  rw [Interval.isEmpty_iff_forall_not_mem (h.proper v)]
  constructor
  · intro hout env henv
    exact hout (env v) ((h.mem_get v env).2 henv)
  · intro hout n hn
    exact hout (fun _ => n) ((h.mem_get v fun _ => n).1 hn)

theorem mem_infeasible_iff (h : Exact rs fs) (v : Var) :
    v ∈ rs.infeasible ↔ v ∈ rs ∧ ∀ env, ¬ Models env (boundsOn fs v) := by
  rw [infeasible_eq_filter h.nodup, List.mem_filter, decide_eq_true_eq, h.isEmpty_get_iff, mem_iff]

end Exact

end Ranges

/-- **Intervals are exact.** After any run of an enabled router, whatever its prover does, the
interval of a variable holds exactly the values that satisfy all bounds on this variable that the
router was ever told. The infeasible variables are, in the order of the ranges, those for which
these bounds contradict each other. -/
theorem Session.mem_get_iff_bounds {σ : Type} [Prover σ] (config : Config)
    (he : config.enabled = true) (p : σ) (calls : List Call) :
    let ranges := ((start config p).run calls).2.router.ranges
    (∀ (v : Var) (env : Var → Int),
        env v ∈ ranges.get v ↔ Models env (boundsOn (constraintsOf calls) v)) ∧
      (ranges.infeasible.Sublist ranges.vars ∧ ranges.vars.Nodup) ∧
      ∀ v, v ∈ ranges.infeasible ↔
        v ∈ ranges ∧ ∀ env, ¬ Models env (boundsOn (constraintsOf calls) v) := by
  intro ranges
  have hexact : ranges.Exact (constraintsOf calls) := by
    show Ranges.Exact ((start config p).run calls).2.router.ranges _
    rw [router_run]
    exact Ranges.Exact.start.run (r := { config := config }) he calls
  refine ⟨hexact.mem_get, ⟨?_, hexact.nodup⟩, hexact.mem_infeasible_iff⟩
  rw [Ranges.infeasible_eq_filter hexact.nodup]
  exact List.filter_sublist

/-- The prover refuses everything here, and the scope is closed again. The bounds on `x` contradict
each other all the same, and `y` keeps the bound `5 <= -y`. -/
theorem Session.mem_get_iff_bounds_contradictory :
    let x : Var := ⟨0⟩
    let y : Var := ⟨1⟩
    let twice : Formula := .cmp .ge (.bin .sub (.bin .mul (.const 2) (.var x)) (.var x)) (.const 5)
    let calls : List Call := [.push, .add twice, .add (.not (.cmp .gt (.const 5) (.neg (.var y)))),
      .add (.cmp .lt (.var x) (.var y)), .query (.cmp .eq (.var y) (.const 0)), .pop,
      .add (.cmp .lt (.var x) (.const 4))]
    let prover : ScriptedProver := { failure := some .interrupted }
    let ranges := ((start {} prover).run calls).2.router.ranges
    ranges.get x = ⟨.fin 5, .fin 3⟩ ∧ ranges.get y = ⟨.negInf, .fin (-5)⟩ ∧
      ranges.infeasible = [x] ∧
      boundsOn (constraintsOf calls) x = [twice, .cmp .lt (.var x) (.const 4)] ∧
      ∀ env : Var → Int, env x ∈ ranges.get x ↔ Models env (boundsOn (constraintsOf calls) x) := by
  intro x y twice calls prover ranges
  refine ⟨by decide, by decide, by decide, by decide, ?_⟩
  exact (mem_get_iff_bounds {} rfl prover calls).1 x

end IntervalPruning
