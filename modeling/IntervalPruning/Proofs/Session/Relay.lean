import IntervalPruning.Proofs.Router.Outcome
import IntervalPruning.Proofs.Session.Step
import Mathlib.Data.List.Induction

/-!
# IntervalPruning.Proofs.Session.Relay

A session taken apart into its router and its prover. In each call the prover gets exactly one
call, `Router.relay` of the one that came, and its reply is the reply of the session; the router
goes on to `Router.after`, whatever that reply is (`Session.call_eq`). A whole run is therefore a
run of the prover on the relayed calls, beside a router that is told the calls and hears nothing
back (`Session.run_eq`). What the router keeps with each call it keeps over a run
(`Router.afterAll_induction`).

Without a budget, or switched off, the router relays each call as it came
(`Router.relay_of_switched_off`), and the session cannot be told from its prover
(`Session.run_eq_of_switched_off`).
-/

namespace IntervalPruning

/-- A constraint that is told in the call. -/
def Call.constraint? : Call → Option Formula
  | add f => some f
  | _ => none

def Call.query? : Call → Option Formula
  | query f => some f
  | _ => none

def constraintsOf (calls : List Call) : List Formula := calls.filterMap Call.constraint?

def queriesOf (calls : List Call) : List Formula := calls.filterMap Call.query?

theorem constraintsOf_concat (cs : List Call) (c : Call) :
    constraintsOf (cs ++ [c]) = constraintsOf cs ++ c.constraint?.toList := by
  rw [constraintsOf, List.filterMap_append]
  cases c <;> rfl

theorem queriesOf_concat (cs : List Call) (c : Call) :
    queriesOf (cs ++ [c]) = queriesOf cs ++ c.query?.toList := by
  rw [queriesOf, List.filterMap_append]
  cases c <;> rfl

namespace Router

/-- The router after a call. -/
def after (r : Router) : Call → Router
  | .add f => (r.add f).router
  | .query f => (r.query f).router
  | _ => r

/-- The call that the prover gets. -/
def relay (r : Router) : Call → Call
  | .add f => .add (r.add f).assertion
  | .query f => .query (r.query f).assertion
  | c => c

def afterAll (r : Router) (calls : List Call) : Router := calls.foldl after r

def relayAll (r : Router) : List Call → List Call
  | [] => []
  | c :: cs => r.relay c :: (r.after c).relayAll cs

@[simp] theorem config_after (r : Router) (c : Call) : (r.after c).config = r.config := by
  cases c with
  | add f => exact config_add r f
  | query f => exact config_query r f
  | push => rfl
  | pop => rfl
  | isUnsat => rfl
  | isUnsatWith fs => rfl
  | unsatCore fs => rfl

/-- What a router keeps with each call, for the calls so far, it keeps over a run. -/
theorem afterAll_induction {motive : List Call → Router → Prop} {r : Router} (nil : motive [] r)
    (concat : ∀ cs c s, s.config = r.config → motive cs s → motive (cs ++ [c]) (s.after c))
    (calls : List Call) : motive calls (r.afterAll calls) := by
  have h : (r.afterAll calls).config = r.config ∧ motive calls (r.afterAll calls) := by
    induction calls using List.reverseRecOn with
    | nil => exact ⟨rfl, nil⟩
    | append_singleton cs c ih =>
      rw [afterAll, List.foldl_append]
      exact ⟨(config_after _ c).trans ih.1, concat cs c _ ih.1 ih.2⟩
  exact h.2

theorem config_afterAll (r : Router) (calls : List Call) :
    (r.afterAll calls).config = r.config :=
  afterAll_induction (motive := fun _ s => s.config = r.config) rfl
    (fun _ c s hs _ => (config_after s c).trans hs) calls

end Router

namespace Session

variable {σ : Type} [Prover σ]

theorem call_eq (s : Session σ) (c : Call) :
    s.call c =
      (Prover.call s.prover (s.router.relay c)).mapState fun q => ⟨s.router.after c, q⟩ := by
  cases c <;> rfl

theorem run_eq (s : Session σ) (calls : List Call) :
    s.run calls =
      ((Prover.run s.prover (s.router.relayAll calls)).1,
        ⟨s.router.afterAll calls, (Prover.run s.prover (s.router.relayAll calls)).2⟩) := by
  induction calls generalizing s with
  | nil => rfl
  | cons c cs ih =>
    have htail := ih (s.call c).state
    rw [call_eq] at htail
    show ((s.call c).result :: ((s.call c).state.run cs).1, ((s.call c).state.run cs).2) = _
    rw [call_eq, htail]
    rfl

@[simp] theorem router_run (s : Session σ) (calls : List Call) :
    (s.run calls).2.router = s.router.afterAll calls := by
  rw [run_eq]

end Session

/-! ## A router that prunes nothing -/

namespace Router

variable {r : Router} {f : Formula} {out : Routed}

/-- Each pruning visits one node at least. -/
theorem not_cost_le_of_switched_off (h : r.config.enabled = false ∨ r.config.pruneBudget = 0)
    (he : r.config.enabled = true) : ¬ f.cost r.ranges.effective ≤ r.config.pruneBudget := by
  rcases h with hoff | hbudget
  · exact absurd (hoff.symm.trans he) Bool.false_ne_true
  · rw [hbudget]
    exact Nat.not_le_of_gt (f.cost_pos r.ranges.effective)

theorem AddOutcome.assertion_of_switched_off
    (h : r.config.enabled = false ∨ r.config.pruneBudget = 0) (ho : AddOutcome r f out) :
    out.assertion = f := by
  cases ho with
  | solved he _ _ hc => exact absurd hc (not_cost_le_of_switched_off h he)
  | off _ => rfl
  | tracked _ _ _ => rfl
  | untracked _ _ _ => rfl
  | exhausted _ _ _ _ => rfl
  | wide _ _ _ => rfl

theorem QueryOutcome.assertion_of_switched_off
    (h : r.config.enabled = false ∨ r.config.pruneBudget = 0) (ho : QueryOutcome r f out) :
    out.assertion = f := by
  cases ho with
  | solved he hc => exact absurd hc (not_cost_le_of_switched_off h he)
  | off _ => rfl
  | exhausted _ _ => rfl

theorem relay_of_switched_off (h : r.config.enabled = false ∨ r.config.pruneBudget = 0) (c : Call) :
    r.relay c = c := by
  cases c with
  | add f => exact congrArg Call.add ((r.add_outcome f).assertion_of_switched_off h)
  | query f => exact congrArg Call.query ((r.query_outcome f).assertion_of_switched_off h)
  | push => rfl
  | pop => rfl
  | isUnsat => rfl
  | isUnsatWith fs => rfl
  | unsatCore fs => rfl

theorem relayAll_of_switched_off (h : r.config.enabled = false ∨ r.config.pruneBudget = 0)
    (calls : List Call) : r.relayAll calls = calls := by
  induction calls generalizing r with
  | nil => rfl
  | cons c cs ih =>
    have hnext : (r.after c).config.enabled = false ∨ (r.after c).config.pruneBudget = 0 := by
      rw [config_after]
      exact h
    rw [relayAll, relay_of_switched_off h, ih hnext]

end Router

/-- **Switched off, a router does not show.** With the router switched off or left without a
budget, every run of a session gives the results of its prover alone and leaves the prover in the
same state, whatever prover it is and whatever the router has learnt before. -/
theorem Session.run_eq_of_switched_off {σ : Type} [Prover σ] (s : Session σ)
    (h : s.router.config.enabled = false ∨ s.router.config.pruneBudget = 0) (calls : List Call) :
    (s.run calls).1 = (Prover.run s.prover calls).1 ∧
      (s.run calls).2.prover = (Prover.run s.prover calls).2 := by
  rw [run_eq, Router.relayAll_of_switched_off h]
  exact ⟨rfl, rfl⟩

/-- Without a budget, `5 <= x` is still known after its scope was closed, and `3 <= x` is asserted
all the same. -/
theorem Session.run_eq_of_switched_off_popped :
    let x : Term := .var ⟨0⟩
    let calls : List Call := [.push, .add (.cmp .ge x (.const 5)), .pop,
      .query (.cmp .ge x (.const 3)), .pop, .isUnsat]
    let prover : ScriptedProver := {}
    let session := start { pruneBudget := 0 } prover
    let last := (session.run calls).2
    last.router.ranges.get ⟨0⟩ = ⟨.fin 5, .posInf⟩ ∧
      last.prover.asserted = [.cmp .ge x (.const 3)] ∧
      (session.run calls).1 = (Prover.run prover calls).1 ∧
      last.prover = (Prover.run prover calls).2 := by
  intro x calls prover session last
  exact ⟨by decide, by decide, session.run_eq_of_switched_off (Or.inr rfl) calls⟩

end IntervalPruning
