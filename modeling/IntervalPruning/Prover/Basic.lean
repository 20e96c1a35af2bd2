import IntervalPruning.Formula.Basic

/-!
# IntervalPruning.Prover.Basic

What a prover has to offer. A prover is a state `σ`; formulas are asserted in a stack of scopes,
and it answers whether they can hold together. Each call gives back a `Reply`: the result or the
reason of the failure, and in both cases the state after the call.

`Call` and `Answer` make the calls data, so that a whole session is a list of calls; `runCalls`
goes through it.
-/

namespace IntervalPruning

inductive Failure where
  | interrupted
  | solver (reason : String)
  | notImplemented (operation : String)
  deriving DecidableEq, Repr

def Failure.message : Failure → String
  | interrupted => "prover interrupted"
  | solver reason => "solver failure: " ++ reason
  | notImplemented operation => operation ++ " is not implemented"

structure Reply (σ α : Type) where
  result : Except Failure α
  state : σ

namespace Reply

variable {σ τ α β : Type}

def ok (a : α) (s : σ) : Reply σ α := ⟨.ok a, s⟩

def fail (e : Failure) (s : σ) : Reply σ α := ⟨.error e, s⟩

def map (f : α → β) (r : Reply σ α) : Reply σ β := ⟨r.result.map f, r.state⟩

def mapState (f : σ → τ) (r : Reply σ α) : Reply τ α := ⟨r.result, f r.state⟩

end Reply

class Prover (σ : Type) where
  assert : σ → Formula → Reply σ Unit
  push : σ → σ
  pop : σ → Reply σ Unit
  isUnsat : σ → Reply σ Bool
  isUnsatWith : σ → List Formula → Reply σ Bool
  /-- some of the given formulas that cannot hold together with the asserted ones -/
  unsatCore : σ → List Formula → Reply σ (Option (List Formula))

/-- A call of a session. A query is a constraint that may be asserted in a simpler form. -/
inductive Call where
  | add (f : Formula)
  | query (f : Formula)
  | push
  | pop
  | isUnsat
  | isUnsatWith (fs : List Formula)
  | unsatCore (fs : List Formula)
  deriving DecidableEq

inductive Answer where
  | done
  | truth (b : Bool)
  | core (fs : Option (List Formula))
  deriving DecidableEq

/-- One call after the other, also after a failure: the results, and the state at the end. -/
def runCalls {σ : Type} (call : σ → Call → Reply σ Answer) (s : σ) :
    List Call → List (Except Failure Answer) × σ
  | [] => ([], s)
  | c :: cs =>
    let r := call s c
    let (results, last) := runCalls call r.state cs
    (r.result :: results, last)

namespace Prover

variable {σ : Type} [Prover σ]

/-- A prover on its own asserts each formula as it comes. -/
def call (s : σ) : Call → Reply σ Answer
  | .add f => (assert s f).map fun _ => .done
  | .query f => (assert s f).map fun _ => .done
  | .push => .ok .done (push s)
  | .pop => (pop s).map fun _ => .done
  | .isUnsat => (isUnsat s).map .truth
  | .isUnsatWith fs => (isUnsatWith s fs).map .truth
  | .unsatCore fs => (unsatCore s fs).map .core

def run (s : σ) (calls : List Call) : List (Except Failure Answer) × σ := runCalls call s calls

end Prover

end IntervalPruning
