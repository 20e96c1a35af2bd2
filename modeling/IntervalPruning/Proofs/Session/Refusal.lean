import IntervalPruning.Proofs.Session.Journal
import Mathlib.Data.List.Induction

/-!
# IntervalPruning.Proofs.Session.Refusal

Sessions whose prover refuses some of the assertions, as an `Attempt` tells it to. A router keeps
what it learnt from a constraint that was refused, and may then drop something else for its sake.

* `Session.Faithful`: what the prover holds has the same solutions as what it accepted.
* `Session.Entailed`: every solution of what was accepted is admitted by the ranges, so a refused
  constraint has taught the router nothing that does not follow from the accepted ones.
* `Session.faithful_iff_entailed`: without a pop, a session is and stays faithful exactly if it is
  entailed all along, or if its budget is too small to visit a comparison.
* `Session.not_faithful_of_refused`: one refused bound is enough to lose a constraint.
-/

namespace IntervalPruning

/-- A call, and how the prover fails if it is asked to assert something in it. -/
structure Attempt where
  call : Call
  failure : Option Failure := none
  deriving DecidableEq

/-- The constraint that a call adds if it takes effect. -/
def Call.accepted : Call → Bool → List Formula
  | add f, true => [f]
  | query f, true => [f]
  | _, _ => []

theorem Call.accepted_of_asks {c : Call} (h : c.asks = true) (ok : Bool) : c.accepted ok = [] :=
  Call.asks_cases (P := fun c => c.accepted ok = []) h rfl (fun _ => rfl) fun _ => rfl

namespace Step

variable {r r' : Router} {a a' : Scopes Formula} {c : Call} {ok : Bool} {env : Var → Int}

theorem models_iff (h : Step r a c ok r' a') (hc : c ≠ .pop)
    (hr : Models env a.toList → r.Preserves env) :
    Models env a'.toList ↔ Models env a.toList ∧ Models env (c.accepted ok) := by
  cases h with
  | added f =>
    rw [Scopes.toList_add, models_append, Call.accepted]
    refine and_congr_right fun ha => ?_
    rw [models_singleton, models_singleton, Router.eval_assertion_add (hr ha)]
  | queried f =>
    rw [Scopes.toList_add, models_append, Call.accepted]
    refine and_congr_right fun ha => ?_
    rw [models_singleton, models_singleton, Router.eval_assertion_query (hr ha)]
  | addRefused f => exact (and_iff_left models_nil).symm
  | queryRefused f => exact (and_iff_left models_nil).symm
  | pushed =>
    rw [Scopes.toList_push]
    exact (and_iff_left models_nil).symm
  | popped => exact absurd rfl hc
  | popRefused => exact absurd rfl hc
  | asked hask ok =>
    rw [Call.accepted_of_asks hask]
    exact (and_iff_left models_nil).symm

theorem asserted_query {f : Formula} (h : Step r a (.query f) true r' a') :
    a' = a.add (r.query f).assertion := by
  cases h with
  | queried => rfl
  | asked hask => cases hask

/-- A constraint that is accepted takes no solution away that satisfies it. -/
theorem admits (h : Step r a c ok r' a') (hok : ∀ f, c = .add f → ok = true)
    (hr : r.ranges.Admits env) (hnew : Models env (c.accepted ok)) : r'.ranges.Admits env := by
  cases h with
  | added f => exact Router.admits_add hr fun _ => models_singleton.1 hnew
  | addRefused f => exact absurd (hok f rfl) Bool.false_ne_true
  | queried f => rw [Router.ranges_query]; exact hr
  | queryRefused f => rw [Router.ranges_query]; exact hr
  | pushed => exact hr
  | popped => exact hr
  | popRefused => exact hr
  | asked _ _ => exact hr

end Step

/-! ## Queries that are folded away -/

namespace Router

variable {r : Router} {env : Var → Int}

theorem assertion_query_of_always (he : r.config.enabled = true) {rel : Rel} {s t : Term}
    (hb : 1 + s.size + t.size ≤ r.config.pruneBudget)
    (h : rel.always (s.interval r.ranges.effective) (t.interval r.ranges.effective) = true) :
    (r.query (.cmp rel s t)).assertion = .const true := by
  rw [assertion_query_of_enabled he, Ranges.prune, Formula.prune_eq, Formula.cost, if_pos hb,
    Formula.reduce, Rel.decide?, if_pos h]
  rfl

/-- Where the ranges leave an assignment out, one end of an interval tells so, and a query that
repeats this end is held for true although it is not. -/
theorem exists_query_folded (he : r.config.enabled = true) (hb : 3 ≤ r.config.pruneBudget)
    (hp : r.ranges.Proper) (h : ¬ r.ranges.Admits env) :
    ∃ f, (r.query f).assertion = .const true ∧ f.eval env = false := by
  obtain ⟨v, hv⟩ := not_forall.1 h
  rw [Ranges.mem_effective, Classical.not_imp] at hv
  obtain ⟨hne, hout⟩ := hv
  obtain ⟨hlower, hupper⟩ := hp v
  have heff : r.ranges.effective v = r.ranges.get v := if_neg hne
  rw [Interval.mem_iff, not_and_or] at hout
  rcases hout with hlow | hhigh
  · cases hl : (r.ranges.get v).lower with
    | negInf => exact absurd (hl ▸ ExtInt.negInf_le _) hlow
    | posInf => exact absurd hl hlower
    | fin k =>
      refine ⟨.cmp .ge (.var v) (.const k), assertion_query_of_always he hb ?_, ?_⟩
      · show (ExtInt.fin k).finLe (r.ranges.effective v).lower = true
        rw [heff, hl]
        exact decide_eq_true (Int.le_refl k)
      · rw [hl, ExtInt.fin_le_fin] at hlow
        exact decide_eq_false hlow
  · cases hu : (r.ranges.get v).upper with
    | posInf => exact absurd (hu ▸ ExtInt.le_posInf _) hhigh
    | negInf => exact absurd hu hupper
    | fin k =>
      refine ⟨.cmp .le (.var v) (.const k), assertion_query_of_always he hb ?_, ?_⟩
      · show (r.ranges.effective v).upper.finLe (ExtInt.fin k) = true
        rw [heff, hu]
        exact decide_eq_true (Int.le_refl k)
      · rw [hu, ExtInt.fin_le_fin] at hhigh
        exact decide_eq_false hhigh

end Router

/-! ## Whole sessions -/

namespace Session

open FallibleProver

variable {σ : Type} [FallibleProver σ]

def attempt (s : Session σ) (a : Attempt) : Reply (Session σ) Answer :=
  Session.call { s with prover := setFailure a.failure s.prover } a.call

/-- The session after all attempts, whether they took effect or not. -/
def attempts (s : Session σ) (as : List Attempt) : Session σ :=
  as.foldl (fun s a => (s.attempt a).state) s

/-- The constraints of the attempts that took effect. -/
def accepted (s : Session σ) : List Attempt → List Formula
  | [] => []
  | a :: as => a.call.accepted (s.attempt a).result.isOk ++ (s.attempt a).state.accepted as

/-- What the prover held at the start, and what it has accepted since. -/
def told (s : Session σ) (as : List Attempt) : List Formula := s.asserted.toList ++ s.accepted as

def Faithful (s : Session σ) (as : List Attempt) : Prop :=
  SameSolutions (s.attempts as).asserted.toList (s.told as)

def Entailed (s : Session σ) (as : List Attempt) : Prop :=
  ∀ env, Models env (s.told as) → (s.attempts as).router.ranges.Admits env

theorem step_attempt (s : Session σ) (a : Attempt) :
    Step s.router s.asserted a.call (s.attempt a).result.isOk (s.attempt a).state.router
      (s.attempt a).state.asserted := by
  have hstep := step_call { s with prover := setFailure a.failure s.prover } a.call
  have hsame : asserted { s with prover := setFailure a.failure s.prover } = s.asserted :=
    scopes_setFailure a.failure s.prover
  rw [hsame] at hstep
  exact hstep

theorem isOk_assert (s : Session σ) (p : Routed) :
    (Session.assert { s with prover := setFailure none s.prover } p).result.isOk = true := by
  show (Prover.assert (setFailure none s.prover) p.assertion).result.isOk = true
  rw [assert_of_none]
  rfl

theorem isOk_attempt_add (s : Session σ) (f : Formula) :
    (s.attempt ⟨.add f, none⟩).result.isOk = true :=
  (Reply.isOk_map _ _).trans (s.isOk_assert (s.router.add f))

theorem isOk_attempt_query (s : Session σ) (f : Formula) :
    (s.attempt ⟨.query f, none⟩).result.isOk = true :=
  (Reply.isOk_map _ _).trans (s.isOk_assert (s.router.query f))

theorem attempts_concat (s : Session σ) (as : List Attempt) (a : Attempt) :
    s.attempts (as ++ [a]) = ((s.attempts as).attempt a).state := by
  simp only [attempts, List.foldl_append, List.foldl_cons, List.foldl_nil]

theorem accepted_concat (s : Session σ) (as : List Attempt) (a : Attempt) :
    s.accepted (as ++ [a]) =
      s.accepted as ++ a.call.accepted ((s.attempts as).attempt a).result.isOk := by
  induction as generalizing s with
  | nil => exact List.append_nil _
  | cons b bs ih =>
    rw [List.cons_append, accepted, ih, accepted, List.append_assoc]
    rfl

theorem models_told_concat {s : Session σ} {as : List Attempt} {a : Attempt} {env : Var → Int} :
    Models env (s.told (as ++ [a])) ↔ Models env (s.told as) ∧
      Models env (a.call.accepted ((s.attempts as).attempt a).result.isOk) := by
  rw [told, accepted_concat, ← List.append_assoc, models_append]
  rfl

/-- A property that no step breaks holds after all attempts. -/
theorem attempts_induction {P : Router → Prop} (s : Session σ) (h : P s.router)
    (hstep : ∀ {r a c ok r' a'}, Step r a c ok r' a' → P r → P r') (as : List Attempt) :
    P (s.attempts as).router := by
  induction as using List.reverseRecOn with
  | nil => exact h
  | append_singleton as a ih =>
    rw [attempts_concat]
    exact hstep (step_attempt _ a) ih

theorem config_attempts (s : Session σ) (as : List Attempt) :
    (s.attempts as).router.config = s.router.config :=
  s.attempts_induction (P := fun r => r.config = s.router.config) rfl
    (fun h hc => h.config.trans hc) as

theorem proper_attempts (s : Session σ) (h : s.router.ranges.Proper) (as : List Attempt) :
    (s.attempts as).router.ranges.Proper :=
  s.attempts_induction (P := fun r => r.ranges.Proper) h Step.proper as

/-- One attempt after another: it is enough that pruning does no harm to the solutions of what was
accepted by then. -/
theorem faithful_of_preserves {s : Session σ} {as : List Attempt} (hpop : ∀ a ∈ as, a.call ≠ .pop)
    (h : ∀ pre, pre <+: as → ∀ env, Models env (s.told pre) →
      (s.attempts pre).router.Preserves env) : s.Faithful as := by
  induction as using List.reverseRecOn with
  | nil =>
    intro env
    rw [told, accepted, List.append_nil]
    rfl
  | append_singleton as a ih =>
    have hlast : a.call ≠ .pop := hpop a (List.mem_append_right _ (List.mem_singleton_self a))
    have hfaithful : s.Faithful as := by
      refine ih (fun b hb => hpop b (List.mem_append_left _ hb)) fun pre hpre => h pre ?_
      exact hpre.trans (List.prefix_append _ _)
    intro env
    rw [models_told_concat, attempts_concat, ← hfaithful env]
    refine (step_attempt _ a).models_iff hlast fun ha => ?_
    exact h as (List.prefix_append _ _) env ((hfaithful env).1 ha)

theorem Entailed.append {s : Session σ} {as more : List Attempt} (h : s.Entailed as)
    (hmore : ∀ a ∈ more, a.failure = none) : s.Entailed (as ++ more) := by
  induction more using List.reverseRecOn with
  | nil => rw [List.append_nil]; exact h
  | append_singleton more a ih =>
    have hlast : a.failure = none := hmore a (List.mem_append_right _ (List.mem_singleton_self a))
    have hok : ∀ f, a.call = .add f → ((s.attempts (as ++ more)).attempt a).result.isOk = true := by
      obtain ⟨c, e⟩ := a
      rintro f rfl
      obtain rfl : e = none := hlast
      exact isOk_attempt_add _ f
    have hbefore := ih fun b hb => hmore b (List.mem_append_left _ hb)
    intro env henv
    rw [← List.append_assoc] at henv ⊢
    obtain ⟨hold, hnew⟩ := models_told_concat.1 henv
    rw [attempts_concat]
    exact (step_attempt _ a).admits hok (hbefore env hold) hnew

/-- If an attempt has taught the router more than follows, a query can be lost. -/
theorem entailed_of_faithful {s : Session σ} {as : List Attempt}
    (he : s.router.config.enabled = true) (hb : 3 ≤ s.router.config.pruneBudget)
    (hp : s.router.ranges.Proper)
    (h : ∀ more, (∀ a ∈ more, a.call ≠ .pop ∧ a.failure = none) → s.Faithful (as ++ more)) :
    s.Entailed as := by
  intro env henv
  by_contra hadm
  have hconfig := s.config_attempts as
  obtain ⟨f, hf, hfalse⟩ := Router.exists_query_folded (hconfig ▸ he) (hconfig ▸ hb)
    (s.proper_attempts hp as) hadm
  have hnow : s.Faithful as := by
    have hnil := h [] (fun a ha => absurd ha List.not_mem_nil)
    rwa [List.append_nil] at hnil
  have hprobe := h [⟨.query f, none⟩] fun a ha => by
    rw [List.mem_singleton.1 ha]
    exact ⟨nofun, rfl⟩
  have hok := isOk_attempt_query (s.attempts as) f
  have hstep := step_attempt (s.attempts as) ⟨.query f, none⟩
  rw [hok] at hstep
  -- the query is asserted as `true`, so what the prover holds still allows `env`
  have hafter : Models env (s.attempts (as ++ [⟨.query f, none⟩])).asserted.toList := by
    rw [attempts_concat, hstep.asserted_query, hf, Scopes.toList_add, models_append]
    exact ⟨(hnow env).2 henv, models_singleton.2 rfl⟩
  have htold := models_told_concat.1 ((hprobe env).1 hafter)
  rw [hok] at htold
  exact Bool.noConfusion (hfalse.symm.trans (models_singleton.1 htold.2))

/-- **When refusals do no harm.** The prover may fail in any of the attempts. What it holds has the
same solutions as what it accepted, at every point and also later if it accepts all that follows,
exactly if at every point what it accepted implies the intervals of the router. The only exception
is a budget too small to visit a single comparison. -/
theorem faithful_iff_entailed (config : Config) (he : config.enabled = true) (p : σ)
    (as : List Attempt) (hpop : ∀ a ∈ as, a.call ≠ .pop) :
    (∀ pre, pre <+: as → ∀ more, (∀ a ∈ more, a.call ≠ .pop ∧ a.failure = none) →
        (start config p).Faithful (pre ++ more)) ↔
      config.pruneBudget < 3 ∨ ∀ pre, pre <+: as → (start config p).Entailed pre := by
  constructor
  · intro h
    by_cases hb : config.pruneBudget < 3
    · exact Or.inl hb
    · refine Or.inr fun pre hpre => ?_
      exact entailed_of_faithful he (Nat.le_of_not_lt hb) Ranges.proper_empty (h pre hpre)
  · intro h pre hpre more hmore
    refine faithful_of_preserves ?_ ?_
    · intro a ha
      rcases List.mem_append.1 ha with ha | ha
      · exact hpop a (hpre.subset ha)
      · exact (hmore a ha).1
    · intro front hfront env henv
      rcases h with hb | hentailed
      · refine Router.preserves_of_budget_lt ?_ env
        rw [config_attempts]
        exact hb
      · refine Router.preserves_of_admits ?_
        rcases List.prefix_or_prefix_of_prefix hfront (List.prefix_append pre more) with hf | hf
        · exact hentailed front (hf.trans hpre) env henv
        · obtain ⟨rest, rfl⟩ := hf
          have hrest : rest <+: more := (List.prefix_append_right_inj pre).1 hfront
          refine (hentailed pre hpre).append ?_ env henv
          exact fun a ha => (hmore a (hrest.subset ha)).2

/-- After `5 <= x` was refused, nothing that was accepted implies it. -/
theorem faithful_iff_entailed_refused :
    let as : List Attempt :=
      [⟨.add (.cmp .ge (.var ⟨0⟩) (.const 5)), some (.solver "no")⟩]
    let session := start {} ({} : ScriptedProver)
    (∀ a ∈ as, a.call ≠ .pop) ∧ ¬ session.Entailed as ∧
      ¬ ∀ pre, pre <+: as → ∀ more, (∀ a ∈ more, a.call ≠ .pop ∧ a.failure = none) →
        session.Faithful (pre ++ more) := by
  intro as session
  have hpop : ∀ a ∈ as, a.call ≠ .pop := by decide
  have hnot : ¬ session.Entailed as := by
    intro h
    have hzero := h (fun _ => 0) models_nil ⟨0⟩
    revert hzero
    decide
  refine ⟨hpop, hnot, fun h => ?_⟩
  rcases (faithful_iff_entailed {} rfl ({} : ScriptedProver) as hpop).1 h with hb | hentailed
  · exact absurd hb (by decide)
  · exact hnot (hentailed as List.prefix_rfl)

/-- The query `3 <= x` is asserted as `true` for the sake of `5 <= x`, which was refused. -/
theorem not_faithful_of_refused :
    let x : Term := .var ⟨0⟩
    let as : List Attempt :=
      [⟨.add (.cmp .ge x (.const 5)), some (.solver "no")⟩, ⟨.query (.cmp .ge x (.const 3)), none⟩]
    let session := start {} ({} : ScriptedProver)
    (session.attempts as).asserted.toList = [.const true] ∧
      session.told as = [.cmp .ge x (.const 3)] ∧ ¬ session.Faithful as := by
  intro x as session
  have hasserted : (session.attempts as).asserted.toList = [.const true] := by decide
  have htold : session.told as = [.cmp .ge x (.const 3)] := by decide
  refine ⟨hasserted, htold, fun h => ?_⟩
  have hzero := h fun _ => 0
  rw [hasserted, htold, models_singleton, models_singleton] at hzero
  exact Bool.noConfusion (hzero.1 rfl)

end Session

end IntervalPruning
