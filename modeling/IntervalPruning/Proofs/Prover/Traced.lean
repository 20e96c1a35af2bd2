import IntervalPruning.Prover.Basic

/-!
# IntervalPruning.Proofs.Prover.Traced

A prover with a record of what it is asked to assert, one entry for each time it is asked, whether
it then asserts the formula or fails. The record is only written to: whoever forgets it finds the
prover as it would be without one (`Traced.run_eq`).
-/

namespace IntervalPruning

structure Traced (σ : Type) where
  prover : σ
  asked : List Formula := []

namespace Traced

variable {σ α : Type} [Prover σ]

/-- A call that asks for no assertion. -/
def silently (t : Traced σ) (k : σ → Reply σ α) : Reply (Traced σ) α :=
  (k t.prover).mapState fun q => { t with prover := q }

instance : Prover (Traced σ) where
  assert t f := (Prover.assert t.prover f).mapState fun q => ⟨q, t.asked ++ [f]⟩
  push t := { t with prover := Prover.push t.prover }
  pop t := t.silently Prover.pop
  isUnsat t := t.silently Prover.isUnsat
  isUnsatWith t fs := t.silently (Prover.isUnsatWith · fs)
  unsatCore t fs := t.silently (Prover.unsatCore · fs)

/-- What a call asks to assert. -/
def askedIn : Call → List Formula
  | .add f => [f]
  | .query f => [f]
  | _ => []

theorem call_eq (t : Traced σ) (c : Call) :
    Prover.call t c = (Prover.call t.prover c).mapState fun q => ⟨q, t.asked ++ askedIn c⟩ := by
  cases c with
  | add f => rfl
  | query f => rfl
  | _ => simp only [askedIn, List.append_nil]; rfl

theorem run_eq (t : Traced σ) (calls : List Call) :
    Prover.run t calls =
      ((Prover.run t.prover calls).1,
        ⟨(Prover.run t.prover calls).2, t.asked ++ calls.flatMap askedIn⟩) := by
  induction calls generalizing t with
  | nil =>
    rw [List.flatMap_nil, List.append_nil]
    rfl
  | cons c cs ih =>
    have htail := ih (Prover.call t c).state
    rw [call_eq] at htail
    show ((Prover.call t c).result :: (Prover.run (Prover.call t c).state cs).1,
      (Prover.run (Prover.call t c).state cs).2) = _
    rw [call_eq, htail, List.flatMap_cons, ← List.append_assoc]
    rfl

end Traced

end IntervalPruning
