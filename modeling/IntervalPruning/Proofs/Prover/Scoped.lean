import IntervalPruning.Grid.Prover
import IntervalPruning.Proofs.Scopes
import IntervalPruning.Prover.Scripted

/-!
# IntervalPruning.Proofs.Prover.Scoped

Provers that are known by the stack of scopes in which they keep what was asserted
(`ScopedProver`): to assert a formula and to close a scope either take effect or fail and change
nothing, to open a scope always takes effect, and no question touches the stack. Nothing is said
about the answers, nor about when a call fails.

A `FallibleProver` can moreover be told, before a call, whether an assertion is to fail.
-/

namespace IntervalPruning

/-- The view of the state becomes `new` if the call succeeds, and stays `old` if it fails. -/
def Reply.Commits {σ α β : Type} (r : Reply σ α) (view : σ → β) (old new : β) : Prop :=
  view r.state = if r.result.isOk then new else old

class ScopedProver (σ : Type) extends Prover σ where
  scopes : σ → Scopes Formula
  assert_commits : ∀ (p : σ) (f : Formula),
    (assert p f).Commits scopes (scopes p) ((scopes p).add f)
  scopes_push : ∀ p : σ, scopes (push p) = (scopes p).push
  pop_commits : ∀ p : σ, (pop p).Commits scopes (scopes p) (scopes p).drop
  scopes_isUnsat : ∀ p : σ, scopes (isUnsat p).state = scopes p
  scopes_isUnsatWith : ∀ (p : σ) (fs : List Formula), scopes (isUnsatWith p fs).state = scopes p
  scopes_unsatCore : ∀ (p : σ) (fs : List Formula), scopes (unsatCore p fs).state = scopes p

namespace ScriptedProver

theorem scopes_unlessFailing {α : Type} {p : ScriptedProver} {k : Reply ScriptedProver α}
    (h : k.state.scopes = p.scopes) : (p.unlessFailing k).state.scopes = p.scopes := by
  unfold unlessFailing
  split
  · rfl
  · exact h

theorem unlessFailing_commits {α : Type} {p : ScriptedProver} {k : Reply ScriptedProver α}
    {new : Scopes Formula} (h : k.Commits scopes p.scopes new) :
    (p.unlessFailing k).Commits scopes p.scopes new := by
  unfold unlessFailing
  split
  · rfl
  · exact h

instance : ScopedProver ScriptedProver where
  scopes := scopes
  assert_commits _ _ := unlessFailing_commits rfl
  scopes_push _ := rfl
  pop_commits p := by
    refine unlessFailing_commits ?_
    split
    · rename_i s hs
      exact (Scopes.drop_of_pop hs).symm
    · rfl
  scopes_isUnsat _ := scopes_unlessFailing rfl
  scopes_isUnsatWith _ _ := scopes_unlessFailing rfl
  scopes_unsatCore _ _ := scopes_unlessFailing rfl

end ScriptedProver

namespace GridProver

theorem pop_of_eq_some {p : GridProver} {s : Scopes Formula} (h : p.scopes.pop? = some s) :
    Prover.pop p = .ok () { p with scopes := s } := by
  simp only [Prover.pop, h]

theorem pop_of_eq_none {p : GridProver} (h : p.scopes.pop? = none) :
    Prover.pop p = .fail (.solver "pop without matching push") p := by
  simp only [Prover.pop, h]

instance : ScopedProver GridProver where
  scopes := scopes
  assert_commits _ _ := rfl
  scopes_push _ := rfl
  pop_commits p := by
    cases h : p.scopes.pop? with
    | some s =>
      rw [pop_of_eq_some h]
      exact (Scopes.drop_of_pop h).symm
    | none =>
      rw [pop_of_eq_none h]
      rfl
  scopes_isUnsat _ := rfl
  scopes_isUnsatWith _ _ := rfl
  scopes_unsatCore _ _ := rfl

end GridProver

class FallibleProver (σ : Type) extends ScopedProver σ where
  setFailure : Option Failure → σ → σ
  scopes_setFailure : ∀ (e : Option Failure) (p : σ), scopes (setFailure e p) = scopes p
  assert_of_none : ∀ (p : σ) (f : Formula), (assert (setFailure none p) f).result = .ok ()
  assert_of_some : ∀ (e : Failure) (p : σ) (f : Formula),
    (assert (setFailure (some e) p) f).result = .error e

instance : FallibleProver ScriptedProver where
  setFailure e p := { p with failure := e }
  scopes_setFailure _ _ := rfl
  assert_of_none _ _ := rfl
  assert_of_some _ _ _ := rfl

end IntervalPruning
