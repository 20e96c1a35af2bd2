import IntervalPruning.Proofs.Prover.Traced
import IntervalPruning.Proofs.Session.Relay

/-!
# IntervalPruning.Proofs.Session.Counters

What the counters of a router say about the calls of a session, whatever the prover answers:

* `Stats.Accounts`: the counters of an enabled router, from the constraints and the queries that
  it was told. Each outcome of a constraint or of a query keeps it (`Stats.Accounts.add`,
  `Stats.Accounts.query`), and so does a run (`Stats.Accounts.run`).
* `Router.afterAll_of_disabled`: a disabled router counts its calls and learns nothing.
* `Router.AddOutcome.solved_of_assertion_ne`, `Router.QueryOutcome.solved_of_assertion_ne`: a
  formula is changed on its way to the prover only if it counts as solved.

`Session.stats_run` puts this together for whole sessions. That the prover is asked once for each
formula is read off the record of a `Traced` prover.
-/

namespace IntervalPruning

def Formula.IsSingle (f : Formula) : Prop := f.freeVars.length = 1

instance (f : Formula) : Decidable f.IsSingle := inferInstanceAs (Decidable (_ = _))

/-- More variables than allowed, and not a single one. -/
def Formula.IsWide (max : Nat) (f : Formula) : Prop :=
  max < f.freeVars.length ∧ 2 ≤ f.freeVars.length

instance (max : Nat) (f : Formula) : Decidable (f.IsWide max) :=
  inferInstanceAs (Decidable (_ ∧ _))

/-- The counters after the constraints `cs` and the queries `qs`. -/
structure Stats.Accounts (s : Stats) (max : Nat) (cs qs : List Formula) : Prop where
  total : s.total + cs.countP (·.IsSingle) = cs.length
  tracked : s.tracked = (cs.filter (·.IsSingle)).countP (·.bound?.isSome)
  /-- Nothing is counted twice, and nothing is left out. -/
  dealt : s.solved + s.fallbacks + s.passthrough = s.total + qs.length
  passthrough : s.passthrough = cs.countP (·.IsWide max)

namespace Stats.Accounts

variable {r : Router} {f : Formula} {out : Routed} {cs qs : List Formula}

theorem start (max : Nat) : Accounts {} max [] [] := ⟨rfl, rfl, rfl, rfl⟩

theorem add (h : Accounts r.stats r.config.maxQueryVars cs qs) (he : r.config.enabled = true)
    (ho : r.AddOutcome f out) : Accounts out.router.stats r.config.maxQueryVars (cs ++ [f]) qs := by
  obtain ⟨htotal, htracked, hdealt, hpass⟩ := h
  cases ho with
  | off hoff => exact absurd (hoff.symm.trans he) Bool.false_ne_true
  | tracked _ hn hb =>
    have hsingle : f.IsSingle := hn
    have hwide : ¬ f.IsWide r.config.maxQueryVars := fun hw => absurd hw.2 (by omega)
    constructor <;> simp [hsingle, hwide, hb] <;> omega
  | untracked _ hn hb =>
    have hsingle : f.IsSingle := hn
    have hwide : ¬ f.IsWide r.config.maxQueryVars := fun hw => absurd hw.2 (by omega)
    constructor <;> simp [hsingle, hwide, hb] <;> omega
  | solved _ hn hmax _ =>
    have hsingle : ¬ f.IsSingle := hn
    have hwide : ¬ f.IsWide r.config.maxQueryVars := fun hw => absurd hw.1 (by omega)
    constructor <;> simp [hsingle, hwide] <;> omega
  | exhausted _ hn hmax _ =>
    have hsingle : ¬ f.IsSingle := hn
    have hwide : ¬ f.IsWide r.config.maxQueryVars := fun hw => absurd hw.1 (by omega)
    constructor <;> simp [hsingle, hwide] <;> omega
  | wide _ hn hmax =>
    have hsingle : ¬ f.IsSingle := hn
    have hwide : f.IsWide r.config.maxQueryVars := ⟨hmax, by omega⟩
    constructor <;> simp [hsingle, hwide] <;> omega

theorem query (h : Accounts r.stats r.config.maxQueryVars cs qs) (he : r.config.enabled = true)
    (ho : r.QueryOutcome f out) : Accounts out.router.stats r.config.maxQueryVars cs (qs ++ [f]) := by
  obtain ⟨htotal, htracked, hdealt, hpass⟩ := h
  cases ho with
  | off hoff => exact absurd (hoff.symm.trans he) Bool.false_ne_true
  | solved _ _ => exact ⟨htotal, htracked, by simp; omega, hpass⟩
  | exhausted _ _ => exact ⟨htotal, htracked, by simp; omega, hpass⟩

theorem after (h : Accounts r.stats r.config.maxQueryVars cs qs) (he : r.config.enabled = true)
    (c : Call) :
    Accounts (r.after c).stats r.config.maxQueryVars (cs ++ c.constraint?.toList)
      (qs ++ c.query?.toList) := by
  cases c with
  | add f =>
    show Accounts (r.add f).router.stats r.config.maxQueryVars (cs ++ [f]) (qs ++ [])
    rw [List.append_nil]
    exact h.add he (r.add_outcome f)
  | query f =>
    show Accounts (r.query f).router.stats r.config.maxQueryVars (cs ++ []) (qs ++ [f])
    rw [List.append_nil]
    exact h.query he (r.query_outcome f)
  | _ =>
    simp only [Call.constraint?, Call.query?, Option.toList_none, List.append_nil]
    exact h

theorem run (h : Accounts r.stats r.config.maxQueryVars [] []) (he : r.config.enabled = true)
    (calls : List Call) :
    Accounts (r.afterAll calls).stats r.config.maxQueryVars (constraintsOf calls)
      (queriesOf calls) := by
  refine Router.afterAll_induction (motive := fun cs s =>
    Accounts s.stats r.config.maxQueryVars (constraintsOf cs) (queriesOf cs)) h
    (fun cs c s hs hcs => ?_) calls
  rw [constraintsOf_concat, queriesOf_concat]
  rw [← hs] at hcs he ⊢
  exact hcs.after he c

end Stats.Accounts

namespace Router

variable {r : Router} {f : Formula} {out : Routed}

theorem add_of_disabled (h : r.config.enabled = false) (f : Formula) :
    r.add f = r.passThrough f := by
  rw [add, Config.route, h]
  rfl

theorem query_of_disabled (h : r.config.enabled = false) (f : Formula) :
    r.query f = r.passThrough f := by
  rw [query, h]
  rfl

/-- A disabled router counts what it is told, and that is all. -/
theorem afterAll_of_disabled (h : r.config.enabled = false) (calls : List Call) :
    r.afterAll calls =
      { r with
        stats.passthrough :=
          r.stats.passthrough + (constraintsOf calls).length + (queriesOf calls).length } := by
  refine afterAll_induction (motive := fun cs s => s =
    { r with
      stats.passthrough :=
        r.stats.passthrough + (constraintsOf cs).length + (queriesOf cs).length }) rfl
    (fun cs c s hs hcs => ?_) calls
  have hs : s.config.enabled = false := (congrArg Config.enabled hs).trans h
  rw [constraintsOf_concat, queriesOf_concat]
  cases c with
  | add f =>
    rw [after, add_of_disabled hs, hcs]
    simp [passThrough, Call.constraint?, Call.query?]
    omega
  | query f =>
    rw [after, query_of_disabled hs, hcs]
    simp [passThrough, Call.constraint?, Call.query?]
    omega
  | _ => simpa [after, Call.constraint?, Call.query?] using hcs

theorem AddOutcome.solved_of_assertion_ne (ho : AddOutcome r f out) (hne : out.assertion ≠ f) :
    out.router.stats.solved = r.stats.solved + 1 := by
  cases ho with
  | solved _ _ _ _ => rfl
  | off _ => exact absurd rfl hne
  | tracked _ _ _ => exact absurd rfl hne
  | untracked _ _ _ => exact absurd rfl hne
  | exhausted _ _ _ _ => exact absurd rfl hne
  | wide _ _ _ => exact absurd rfl hne

theorem QueryOutcome.solved_of_assertion_ne (ho : QueryOutcome r f out) (hne : out.assertion ≠ f) :
    out.router.stats.solved = r.stats.solved + 1 := by
  cases ho with
  | solved _ _ => rfl
  | off _ => exact absurd rfl hne
  | exhausted _ _ => exact absurd rfl hne

theorem askedIn_relayAll (r : Router) (calls : List Call) :
    ((r.relayAll calls).flatMap Traced.askedIn).length =
      (constraintsOf calls).length + (queriesOf calls).length := by
  induction calls generalizing r with
  | nil => rfl
  | cons c cs ih =>
    rw [relayAll, List.flatMap_cons, List.length_append, ih, constraintsOf, queriesOf,
      constraintsOf, queriesOf, List.filterMap_cons, List.filterMap_cons]
    cases c with
    | add f => simp [relay, Traced.askedIn, Call.constraint?, Call.query?]; omega
    | query f => simp [relay, Traced.askedIn, Call.constraint?, Call.query?]; omega
    | _ => simp [relay, Traced.askedIn, Call.constraint?, Call.query?]

end Router

namespace Session

variable {σ : Type} [Prover σ]

theorem asked_call (s : Session (Traced σ)) (c : Call) :
    (s.call c).state.prover.asked = s.prover.asked ++ Traced.askedIn (s.router.relay c) := by
  rw [call_eq, Traced.call_eq]
  rfl

theorem prover_run_traced (config : Config) (p : σ) (calls : List Call) :
    ((start config ({ prover := p } : Traced σ)).run calls).2.prover =
      ⟨((start config p).run calls).2.prover,
        (({ config := config } : Router).relayAll calls).flatMap Traced.askedIn⟩ := by
  rw [run_eq, run_eq, Traced.run_eq]
  rfl

/-- **The counters account for every call**, whatever the prover answers and however often it
fails. For each constraint and for each query the prover is asked once to assert a formula, which
is another one than was told only in a call that counts as solved. -/
theorem stats_run (config : Config) (p : σ) (calls : List Call) :
    let last := ((start config p).run calls).2
    let traced := ((start config ({ prover := p } : Traced σ)).run calls).2
    let told := (constraintsOf calls).length + (queriesOf calls).length
    (config.enabled = true →
        last.router.stats.Accounts config.maxQueryVars (constraintsOf calls) (queriesOf calls)) ∧
      (config.enabled = false →
        last.router.stats = { passthrough := told } ∧ last.router.ranges = .empty) ∧
      (traced.router = last.router ∧ traced.prover.prover = last.prover) ∧
      traced.prover.asked.length = told ∧
      ∀ c f, c = .add f ∨ c = .query f →
        ∃ g, (traced.call c).state.prover.asked = traced.prover.asked ++ [g] ∧
          (g ≠ f →
            (traced.call c).state.router.stats.solved = traced.router.stats.solved + 1) := by
  intro last traced told
  have hlast : last.router = ({ config := config } : Router).afterAll calls := router_run _ calls
  have htraced : traced.router = ({ config := config } : Router).afterAll calls := router_run _ calls
  have hprover : traced.prover = ⟨last.prover, _⟩ := prover_run_traced config p calls
  refine ⟨fun he => ?_, fun he => ?_, ⟨htraced.trans hlast.symm, ?_⟩, ?_, ?_⟩
  · rw [hlast]
    exact (Stats.Accounts.start config.maxQueryVars).run (r := { config := config }) he calls
  · rw [hlast, Router.afterAll_of_disabled he]
    exact ⟨by simp [told], rfl⟩
  · rw [hprover]
  · rw [hprover]
    exact Router.askedIn_relayAll _ calls
  · rintro c f (rfl | rfl)
    · refine ⟨(traced.router.add f).assertion, asked_call traced _, fun hne => ?_⟩
      rw [call_eq]
      exact (traced.router.add_outcome f).solved_of_assertion_ne hne
    · refine ⟨(traced.router.query f).assertion, asked_call traced _, fun hne => ?_⟩
      rw [call_eq]
      exact (traced.router.query_outcome f).solved_of_assertion_ne hne

/-- Every assertion is refused here. Of two bounds on `x` only the first is one, three variables
are too many, and the budget does not reach the end of the conjunction. -/
theorem stats_run_refused :
    let x : Term := .var ⟨0⟩
    let y : Term := .var ⟨1⟩
    let z : Term := .var ⟨2⟩
    let calls : List Call := [.add (.cmp .ge x (.const 5)), .add (.cmp .le (.bin .mul x x) (.const 9)),
      .push, .add (.cmp .le (.bin .add x y) z), .query (.cmp .ge x (.const 3)),
      .add (.conn .and [.cmp .le x y, .cmp .le y x]), .pop, .add (.cmp .lt (.const 1) (.const 2))]
    let config : Config := { maxQueryVars := 2, pruneBudget := 6 }
    let prover : ScriptedProver := { failure := some .interrupted }
    let last := ((start config prover).run calls).2
    last.router.stats = ⟨3, 2, 1, 1, 1⟩ ∧
      last.router.stats.Accounts 2 (constraintsOf calls) (queriesOf calls) := by
  intro x y z calls config prover last
  exact ⟨by decide, (stats_run config prover calls).1 rfl⟩

end Session

end IntervalPruning
