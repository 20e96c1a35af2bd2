import IntervalPruning.Proofs.Ranges.Updates
import IntervalPruning.Proofs.Session.Relay

/-!
# IntervalPruning.Proofs.Session.Updates

What an enabled router learns in a run is one list of updates to its ranges, made from the
constraints alone (`Session.ranges_run_of_enabled`). The route that a constraint takes does not show
in the ranges, because only a constraint about a single variable is ever a bound, and neither does
what the prover says to it.
-/

namespace IntervalPruning

def Call.updates : Call → List Update
  | add f => f.updates
  | _ => []

theorem flatMap_updates (calls : List Call) :
    calls.flatMap Call.updates = (constraintsOf calls).flatMap Formula.updates := by
  rw [constraintsOf, List.filterMap_eq_flatMap_toList, List.flatMap_assoc]
  refine congrArg calls.flatMap (funext fun c => ?_)
  cases c with
  | add f => exact (List.append_nil _).symm
  | _ => rfl

theorem Formula.boundUpdates_of_not_single {f : Formula} (h : f.freeVars.length ≠ 1) :
    f.boundUpdates = [] := by
  cases hb : f.bound? with
  | none => rw [boundUpdates, hb]; rfl
  | some e => exact absurd (congrArg List.length (freeVars_of_bound hb)) h

namespace Router

variable {r : Router} {f : Formula} {out : Routed}

theorem AddOutcome.ranges_eq (ho : AddOutcome r f out) (he : r.config.enabled = true) :
    out.router.ranges = r.ranges.updateAll f.updates := by
  have hobserve (h : f.boundUpdates = []) : r.ranges.observe f = r.ranges.updateAll f.updates := by
    rw [← Ranges.constrain_observe_eq_updateAll, Ranges.constrain_eq_updateAll, h]
    rfl
  cases ho with
  | off hoff => exact absurd (hoff.symm.trans he) Bool.false_ne_true
  | tracked _ _ _ => exact Ranges.constrain_observe_eq_updateAll r.ranges f
  | untracked _ _ hb =>
    refine hobserve ?_
    rw [Formula.boundUpdates, Option.not_isSome_iff_eq_none.1 hb]
    rfl
  | solved _ hn _ _ => exact hobserve (Formula.boundUpdates_of_not_single hn)
  | exhausted _ hn _ _ => exact hobserve (Formula.boundUpdates_of_not_single hn)
  | wide _ hn _ => exact hobserve (Formula.boundUpdates_of_not_single hn)

theorem ranges_after_of_enabled (he : r.config.enabled = true) (c : Call) :
    (r.after c).ranges = r.ranges.updateAll c.updates := by
  cases c with
  | add f => exact (r.add_outcome f).ranges_eq he
  | query f => exact ranges_query r f
  | _ => rfl

theorem ranges_afterAll_of_enabled (he : r.config.enabled = true) (calls : List Call) :
    (r.afterAll calls).ranges = r.ranges.updateAll (calls.flatMap Call.updates) := by
  refine afterAll_induction
    (motive := fun cs s => s.ranges = r.ranges.updateAll (cs.flatMap Call.updates)) rfl
    (fun cs c s hs hcs => ?_) calls
  rw [ranges_after_of_enabled ((congrArg Config.enabled hs).trans he), hcs, List.flatMap_append,
    Ranges.updateAll_append, List.flatMap_singleton]

end Router

namespace Session

variable {σ : Type} [Prover σ]

theorem config_run (s : Session σ) (calls : List Call) :
    (s.run calls).2.router.config = s.router.config := by
  rw [router_run, Router.config_afterAll]

theorem ranges_run_of_enabled {s : Session σ} (he : s.router.config.enabled = true)
    (calls : List Call) :
    (s.run calls).2.router.ranges = s.router.ranges.updateAll (calls.flatMap Call.updates) := by
  rw [router_run, Router.ranges_afterAll_of_enabled he]

end Session

end IntervalPruning
