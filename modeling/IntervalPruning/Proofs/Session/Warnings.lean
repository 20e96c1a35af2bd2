import IntervalPruning.Proofs.Ranges.Warnings
import IntervalPruning.Proofs.Session.Updates

/-!
# IntervalPruning.Proofs.Session.Warnings

The log of a session, `Session.log`. Only what narrows an interval ever warns, so the warnings of an
enabled router in a run are those of the updates to its ranges (`Session.warned_log`), whatever the
prover does.

`Session.narrows_and_warns_once` says of ranges and of sessions alike that intervals never widen,
that nothing makes an infeasible variable feasible again, and that each of them was warned about
once.
-/

namespace IntervalPruning

theorem Ranges.warned_pruneEvents (rs : Ranges) (f : Formula) (budget : Nat) :
    warned (rs.pruneEvents f budget) = [] := by
  have hdecided (ds : List Decision) : warned (ds.map .decided) = [] := by
    refine List.filterMap_eq_nil_iff.2 fun e he => ?_
    obtain ⟨d, -, rfl⟩ := List.mem_map.1 he
    rfl
  rw [pruneEvents, warned_append, warned_append, hdecided]
  split
  · rfl
  · rfl

namespace Router

variable {r : Router}

theorem warned_pruneQueryEvents (r : Router) (f : Formula) :
    warned (r.pruneQueryEvents f) = [] := by
  rw [pruneQueryEvents, warned_append, Ranges.warned_pruneEvents]
  split
  · rfl
  · rfl

theorem warned_trackEvents (r : Router) (f : Formula) :
    warned (r.trackEvents f) = warned (r.ranges.updateLog f.boundUpdates) := by
  rw [trackEvents, Ranges.constrainEvents, Formula.boundUpdates]
  cases f.bound? with
  | none => rfl
  | some e =>
    show warned (r.ranges.narrowEvents e.1 e.2) = warned (r.ranges.narrowEvents e.1 e.2 ++ [])
    rw [List.append_nil]

/-- The variables are registered before anything else, and that gives no warning. -/
theorem warned_addEvents (he : r.config.enabled = true) (f : Formula) :
    warned (r.addEvents f) = warned (r.ranges.updateLog f.updates) := by
  have hmet (n : Nat) : warned (r.ranges.observeEvents f ++ [.counted f n]) = [] := by
    rw [warned_append, Ranges.observeEvents, Ranges.warned_registerAllEvents]
    rfl
  have hupdates : warned (r.ranges.updateLog f.updates) =
      warned ((r.observe f).ranges.updateLog f.boundUpdates) := by
    rw [Formula.updates, Ranges.updateLog_append, warned_append,
      ← Ranges.registerAllEvents_eq_updateLog, Ranges.warned_registerAllEvents, List.nil_append,
      ← Ranges.registerAll_eq_updateAll]
    rfl
  rw [addEvents, Config.route_of_enabled he, hupdates]
  by_cases hn : f.freeVars.length = 1
  · simp only [if_pos hn, warned_append _ ((r.observe f).trackEvents f), hmet, warned_trackEvents,
      List.nil_append]
  · rw [if_neg hn, Formula.boundUpdates_of_not_single hn]
    by_cases hmax : f.freeVars.length ≤ r.config.maxQueryVars
    · simp only [if_pos hmax, warned_append _ ((r.observe f).pruneQueryEvents f), hmet,
        warned_pruneQueryEvents]
      rfl
    · simp only [if_neg hmax, warned_append _ [Event.tooWide _ _], hmet]
      rfl

end Router

namespace Session

variable {σ : Type}

theorem warned_events {s : Session σ} (he : s.router.config.enabled = true) (c : Call) :
    warned (s.events c) = warned (s.router.ranges.updateLog c.updates) := by
  cases c with
  | add f => exact Router.warned_addEvents he f
  | query f =>
    rw [events, Router.queryEvents, if_pos he]
    exact Router.warned_pruneQueryEvents s.router f
  | isUnsat =>
    rw [events, Router.unsatEvents]
    split
    · rfl
    · rfl
  | _ => rfl

variable [Prover σ]

/-- The events of one call after the other. -/
def log (s : Session σ) : List Call → List Event
  | [] => []
  | c :: cs => s.events c ++ (s.call c).state.log cs

theorem warned_log {s : Session σ} (he : s.router.config.enabled = true) (calls : List Call) :
    warned (s.log calls) = warned (s.router.ranges.updateLog (calls.flatMap Call.updates)) := by
  induction calls generalizing s with
  | nil => rfl
  | cons c cs ih =>
    have hrouter : (s.call c).state.router = s.router.after c := congrArg (·.state.router) (call_eq s c)
    have hnext : (s.call c).state.router.config.enabled = true := by
      rw [hrouter, Router.config_after, he]
    rw [log, warned_append, warned_events he, ih hnext, hrouter, Router.ranges_after_of_enabled he,
      List.flatMap_cons, Ranges.updateLog_append, warned_append]

/-- **Intervals never widen, and an infeasible variable is reported once.** Take any updates of new
ranges, or any run of an enabled router, whatever its prover does. Whatever comes after, ends only
move inwards and what is infeasible stays so; and at any time the log holds one warning for each
variable whose interval is empty, and no other warning. -/
theorem narrows_and_warns_once (config : Config) (he : config.enabled = true) (p : σ) :
    (∀ us more : List Update,
      let ranges := Ranges.empty.updateAll us
      ranges.NarrowsTo (ranges.updateAll more) ∧
        ranges.WarnedOnce (Ranges.empty.updateLog us)) ∧
    ∀ calls more : List Call,
      let last := ((start config p).run calls).2
      last.router.ranges.NarrowsTo (last.run more).2.router.ranges ∧
        last.router.ranges.WarnedOnce ((start config p).log calls) := by
  constructor
  · intro us more ranges
    exact ⟨Ranges.narrowsTo_updateAll (Ranges.nodup_updateAll Ranges.nodup_empty us) more,
      Ranges.warnedOnce_updateAll us⟩
  · intro calls more last
    have hranges : last.router.ranges = Ranges.empty.updateAll (calls.flatMap Call.updates) :=
      ranges_run_of_enabled (s := start config p) he calls
    have henabled : last.router.config.enabled = true := by
      rw [config_run]
      exact he
    rw [ranges_run_of_enabled henabled, hranges]
    exact ⟨Ranges.narrowsTo_updateAll (Ranges.nodup_updateAll Ranges.nodup_empty _) _,
      (Ranges.warnedOnce_updateAll _).congr (warned_log (s := start config p) he calls).symm⟩

/-- The bounds on `x` cross inside a scope whose assertions are refused. Neither the end of the scope
nor one more bound on `x` undoes that or warns again, and `y` is warned about on its own account. -/
theorem narrows_and_warns_once_popped :
    let x : Var := ⟨0⟩
    let y : Var := ⟨1⟩
    let calls : List Call := [.push, .add (.cmp .ge (.var x) (.const 5)),
      .add (.cmp .lt (.var x) (.const 4)), .add (.cmp .eq (.neg (.var y)) (.const 2))]
    let more : List Call := [.pop, .isUnsat, .add (.cmp .gt (.var x) (.const 7)),
      .add (.cmp .le (.var x) (.var y)), .add (.cmp .gt (.var y) (.const 0))]
    let prover : ScriptedProver := { failure := some .interrupted }
    let session := start {} prover
    let before := (session.run calls).2.router.ranges
    let after := (session.run (calls ++ more)).2.router.ranges
    before.get x = ⟨.fin 5, .fin 3⟩ ∧ after.get x = ⟨.fin 8, .fin 3⟩ ∧
      after.infeasible = [x, y] ∧ warned (session.log (calls ++ more)) = [x, y] ∧
      before.NarrowsTo ((session.run calls).2.run more).2.router.ranges ∧
      after.WarnedOnce (session.log (calls ++ more)) := by
  intro x y calls more prover session before after
  obtain ⟨-, hrun⟩ := narrows_and_warns_once {} rfl prover
  exact ⟨by decide, by decide, by decide, by decide, (hrun calls more).1, (hrun (calls ++ more) []).2⟩

end Session

end IntervalPruning
