import IntervalPruning.Proofs.Prover.Scoped
import IntervalPruning.Proofs.Router
import IntervalPruning.Session

/-!
# IntervalPruning.Proofs.Session.Step

What one call does to a session, seen from outside: `Step r a c ok r' a'` lists all that the call
`c` can do to the router `r` and to the scopes `a` of the prover, where `ok` says whether the call
took effect. A session in front of any `ScopedProver` moves by these steps only (`step_call`), so
what is kept by each of them is kept by every run.
-/

namespace IntervalPruning

/-- The call only asks something. -/
def Call.asks : Call → Bool
  | isUnsat => true
  | isUnsatWith _ => true
  | unsatCore _ => true
  | _ => false

theorem Call.asks_cases {P : Call → Prop} {c : Call} (h : c.asks = true) (isUnsat : P .isUnsat)
    (isUnsatWith : ∀ fs, P (.isUnsatWith fs)) (unsatCore : ∀ fs, P (.unsatCore fs)) : P c := by
  cases c with
  | isUnsat => exact isUnsat
  | isUnsatWith fs => exact isUnsatWith fs
  | unsatCore fs => exact unsatCore fs
  | add f => cases h
  | query f => cases h
  | push => cases h
  | pop => cases h

inductive Step (r : Router) (a : Scopes Formula) : Call → Bool → Router → Scopes Formula → Prop
  | added (f : Formula) :
      Step r a (.add f) true (r.add f).router (a.add (r.add f).assertion)
  | addRefused (f : Formula) : Step r a (.add f) false (r.add f).router a
  | queried (f : Formula) :
      Step r a (.query f) true (r.query f).router (a.add (r.query f).assertion)
  | queryRefused (f : Formula) : Step r a (.query f) false (r.query f).router a
  | pushed : Step r a .push true r a.push
  | popped : Step r a .pop true r a.drop
  | popRefused : Step r a .pop false r a
  | asked {c : Call} (h : c.asks = true) (ok : Bool) : Step r a c ok r a

theorem Step.config {r r' : Router} {a a' : Scopes Formula} {c : Call} {ok : Bool}
    (h : Step r a c ok r' a') : r'.config = r.config := by
  cases h with
  | added f => exact Router.config_add r f
  | addRefused f => exact Router.config_add r f
  | queried f => exact Router.config_query r f
  | queryRefused f => exact Router.config_query r f
  | pushed => rfl
  | popped => rfl
  | popRefused => rfl
  | asked _ _ => rfl

theorem Step.proper {r r' : Router} {a a' : Scopes Formula} {c : Call} {ok : Bool}
    (h : Step r a c ok r' a') (hr : r.ranges.Proper) : r'.ranges.Proper := by
  cases h with
  | added f => exact Router.proper_add hr f
  | addRefused f => exact Router.proper_add hr f
  | queried f => rw [Router.ranges_query]; exact hr
  | queryRefused f => rw [Router.ranges_query]; exact hr
  | pushed => exact hr
  | popped => exact hr
  | popRefused => exact hr
  | asked _ _ => exact hr

@[simp] theorem Reply.isOk_map {σ α β : Type} (g : α → β) (r : Reply σ α) :
    (r.map g).result.isOk = r.result.isOk := by
  obtain ⟨result, s⟩ := r
  cases result <;> rfl

namespace Session

open ScopedProver

section Start

variable {σ : Type}

/-- A session that has not yet learnt anything. -/
def start (config : Config) (p : σ) : Session σ := ⟨{ config := config }, p⟩

end Start

variable {σ : Type} [ScopedProver σ]

/-- What the prover holds. -/
def asserted (s : Session σ) : Scopes Formula := scopes s.prover

theorem asserted_assert (s : Session σ) (p : Routed) :
    (s.assert p).state.asserted =
      if (s.assert p).result.isOk then s.asserted.add p.assertion else s.asserted :=
  assert_commits s.prover p.assertion

theorem step_call (s : Session σ) (c : Call) :
    Step s.router s.asserted c (s.call c).result.isOk (s.call c).state.router
      (s.call c).state.asserted := by
  cases c with
  | add f =>
    have ha : (s.call (.add f)).state.asserted = _ := asserted_assert s (s.router.add f)
    have hok : (s.call (.add f)).result.isOk = _ := Reply.isOk_map _ (s.add f)
    rw [ha, hok, add]
    cases (s.assert (s.router.add f)).result.isOk with
    | true => exact .added f
    | false => exact .addRefused f
  | query f =>
    have ha : (s.call (.query f)).state.asserted = _ := asserted_assert s (s.router.query f)
    have hok : (s.call (.query f)).result.isOk = _ := Reply.isOk_map _ (s.query f)
    rw [ha, hok, query]
    cases (s.assert (s.router.query f)).result.isOk with
    | true => exact .queried f
    | false => exact .queryRefused f
  | push =>
    have ha : (s.call .push).state.asserted = _ := scopes_push s.prover
    rw [ha]
    exact .pushed
  | pop =>
    have ha : (s.call .pop).state.asserted = _ := pop_commits s.prover
    have hok : (s.call .pop).result.isOk = _ := Reply.isOk_map _ s.pop
    rw [ha, hok, show s.pop.result = (Prover.pop s.prover).result from rfl]
    cases (Prover.pop s.prover).result.isOk with
    | true => exact .popped
    | false => exact .popRefused
  | isUnsat =>
    have ha : (s.call .isUnsat).state.asserted = _ := scopes_isUnsat s.prover
    rw [ha]
    exact .asked rfl _
  | isUnsatWith fs =>
    have ha : (s.call (.isUnsatWith fs)).state.asserted = _ := scopes_isUnsatWith s.prover fs
    rw [ha]
    exact .asked rfl _
  | unsatCore fs =>
    have ha : (s.call (.unsatCore fs)).state.asserted = _ := scopes_unsatCore s.prover fs
    rw [ha]
    exact .asked rfl _

end Session

end IntervalPruning
