import IntervalPruning.Proofs.Prune.Reduce
import IntervalPruning.Proofs.Ranges
import IntervalPruning.Router.Basic

/-!
# IntervalPruning.Proofs.Router.Outcome

All that can become of a formula, with the condition for it, the router that is left and the
formula that is asserted: `Router.QueryOutcome` for a query, `Router.AddOutcome` for a constraint.
`Router.query_outcome` and `Router.add_outcome` say that nothing else can happen, so a fact about
what a router does is proved case by case.
-/

namespace IntervalPruning

theorem Ranges.effective_observe (rs : Ranges) (f : Formula) :
    (rs.observe f).effective = rs.effective :=
  funext (Ranges.effective_congr (Ranges.get_observe rs f))

theorem Config.route_of_enabled {c : Config} (he : c.enabled = true) (n : Nat) :
    c.route n = if n = 1 then .single else if n ≤ c.maxQueryVars then .query else .wide := by
  rw [route, he]
  rfl

namespace Router

variable {r : Router} {f : Formula}

inductive QueryOutcome (r : Router) (f : Formula) : Routed → Prop
  | off (h : r.config.enabled = false) :
      QueryOutcome r f ⟨{ r with stats.passthrough := r.stats.passthrough + 1 }, f⟩
  | solved (he : r.config.enabled = true)
      (hc : f.cost r.ranges.effective ≤ r.config.pruneBudget) :
      QueryOutcome r f
        ⟨{ r with stats.solved := r.stats.solved + 1 }, f.reduce r.ranges.effective⟩
  | exhausted (he : r.config.enabled = true)
      (hc : r.config.pruneBudget < f.cost r.ranges.effective) :
      QueryOutcome r f ⟨{ r with stats.fallbacks := r.stats.fallbacks + 1 }, f⟩

inductive AddOutcome (r : Router) (f : Formula) : Routed → Prop
  | off (h : r.config.enabled = false) :
      AddOutcome r f ⟨{ r with stats.passthrough := r.stats.passthrough + 1 }, f⟩
  | tracked (he : r.config.enabled = true) (hn : f.freeVars.length = 1) (hb : f.bound?.isSome) :
      AddOutcome r f
        ⟨{ r with
            ranges := (r.ranges.observe f).constrain f
            stats.tracked := r.stats.tracked + 1 }, f⟩
  | untracked (he : r.config.enabled = true) (hn : f.freeVars.length = 1)
      (hb : ¬ f.bound?.isSome) :
      AddOutcome r f ⟨{ r with ranges := r.ranges.observe f }, f⟩
  | solved (he : r.config.enabled = true) (hn : f.freeVars.length ≠ 1)
      (hmax : f.freeVars.length ≤ r.config.maxQueryVars)
      (hc : f.cost r.ranges.effective ≤ r.config.pruneBudget) :
      AddOutcome r f
        ⟨{ r with
            ranges := r.ranges.observe f
            stats.total := r.stats.total + 1
            stats.solved := r.stats.solved + 1 }, f.reduce r.ranges.effective⟩
  | exhausted (he : r.config.enabled = true) (hn : f.freeVars.length ≠ 1)
      (hmax : f.freeVars.length ≤ r.config.maxQueryVars)
      (hc : r.config.pruneBudget < f.cost r.ranges.effective) :
      AddOutcome r f
        ⟨{ r with
            ranges := r.ranges.observe f
            stats.total := r.stats.total + 1
            stats.fallbacks := r.stats.fallbacks + 1 }, f⟩
  | wide (he : r.config.enabled = true) (hn : f.freeVars.length ≠ 1)
      (hmax : r.config.maxQueryVars < f.freeVars.length) :
      AddOutcome r f
        ⟨{ r with
            ranges := r.ranges.observe f
            stats.total := r.stats.total + 1
            stats.passthrough := r.stats.passthrough + 1 }, f⟩

theorem pruneQuery_of_cost_le (h : f.cost r.ranges.effective ≤ r.config.pruneBudget) :
    r.pruneQuery f =
      ⟨{ r with stats.solved := r.stats.solved + 1 }, f.reduce r.ranges.effective⟩ := by
  rw [pruneQuery, Ranges.prune, Formula.prune_of_cost_le h]
  rfl

theorem pruneQuery_of_lt_cost (h : r.config.pruneBudget < f.cost r.ranges.effective) :
    r.pruneQuery f = ⟨{ r with stats.fallbacks := r.stats.fallbacks + 1 }, f⟩ := by
  rw [pruneQuery, Ranges.prune, Formula.prune_of_lt_cost h]
  rfl

theorem query_outcome (r : Router) (f : Formula) : QueryOutcome r f (r.query f) := by
  unfold query
  split
  · rename_i he
    rcases Nat.lt_or_ge r.config.pruneBudget (f.cost r.ranges.effective) with hc | hc
    · rw [pruneQuery_of_lt_cost hc]
      exact .exhausted he hc
    · rw [pruneQuery_of_cost_le hc]
      exact .solved he hc
  · rename_i he
    exact .off (Bool.not_eq_true _ ▸ he)

theorem add_outcome (r : Router) (f : Formula) : AddOutcome r f (r.add f) := by
  cases he : r.config.enabled with
  | false =>
    have hroute : r.config.route f.freeVars.length = .verbatim := by
      rw [Config.route, he]
      rfl
    rw [add, hroute]
    exact .off he
  | true =>
    rw [add, Config.route_of_enabled he]
    by_cases hn : f.freeVars.length = 1
    · rw [if_pos hn]
      by_cases hb : f.bound?.isSome
      · rw [show (r.observe f).track f = _ from if_pos hb]
        exact .tracked he hn hb
      · rw [show (r.observe f).track f = _ from if_neg hb]
        exact .untracked he hn hb
    · rw [if_neg hn]
      by_cases hmax : f.freeVars.length ≤ r.config.maxQueryVars
      · rw [if_pos hmax]
        -- observing a formula changes no interval, so pruning costs what it did before
        have heff : (r.observe f).countTotal.ranges.effective = r.ranges.effective :=
          r.ranges.effective_observe f
        rcases Nat.lt_or_ge r.config.pruneBudget (f.cost r.ranges.effective) with hc | hc
        · rw [show (r.observe f).countTotal.pruneQuery f = _ from
            pruneQuery_of_lt_cost (heff ▸ hc)]
          exact .exhausted he hn hmax hc
        · rw [show (r.observe f).countTotal.pruneQuery f = _ from
            pruneQuery_of_cost_le (heff ▸ hc), heff]
          exact .solved he hn hmax hc
      · rw [if_neg hmax]
        exact .wide he hn (Nat.lt_of_not_le hmax)

end Router

end IntervalPruning
