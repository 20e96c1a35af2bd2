import IntervalPruning.Prover.Basic
import IntervalPruning.Router.Log

/-!
# IntervalPruning.Session

A router in front of a prover. A constraint goes through the router, which says what to assert;
all other calls go to the prover unchanged. Opening and closing scopes leaves the router as it
is, so what it learnt in a scope it still holds for true outside.
-/

namespace IntervalPruning

structure Session (σ : Type) where
  router : Router
  prover : σ

namespace Session

variable {σ : Type} [Prover σ]

/-- The router keeps its new state even if the prover then refuses the assertion. -/
def assert (s : Session σ) (p : Routed) : Reply (Session σ) Unit :=
  (Prover.assert s.prover p.assertion).mapState fun q => ⟨p.router, q⟩

def add (s : Session σ) (f : Formula) : Reply (Session σ) Unit := s.assert (s.router.add f)

def query (s : Session σ) (f : Formula) : Reply (Session σ) Unit := s.assert (s.router.query f)

/-- A call in which the router has no part. -/
def forward {α : Type} (s : Session σ) (k : σ → Reply σ α) : Reply (Session σ) α :=
  (k s.prover).mapState fun q => { s with prover := q }

def push (s : Session σ) : Session σ := { s with prover := Prover.push s.prover }

def pop (s : Session σ) : Reply (Session σ) Unit := s.forward Prover.pop

def isUnsat (s : Session σ) : Reply (Session σ) Bool := s.forward Prover.isUnsat

def isUnsatWith (s : Session σ) (fs : List Formula) : Reply (Session σ) Bool :=
  s.forward (Prover.isUnsatWith · fs)

def unsatCoreOver (s : Session σ) (fs : List Formula) :
    Reply (Session σ) (Option (List Formula)) :=
  s.forward (Prover.unsatCore · fs)

/-- A core over all that was asserted is not on offer. -/
def unsatCore (s : Session σ) : Reply (Session σ) (List Formula) :=
  .fail (.notImplemented "unsat_core") s

/-- Nor is the list of all solutions. -/
def allSat (s : Session σ) (_important : List Formula) : Reply (Session σ) (List (List Formula)) :=
  .fail (.notImplemented "all_sat") s

def call (s : Session σ) : Call → Reply (Session σ) Answer
  | .add f => (s.add f).map fun _ => .done
  | .query f => (s.query f).map fun _ => .done
  | .push => .ok .done s.push
  | .pop => s.pop.map fun _ => .done
  | .isUnsat => s.isUnsat.map .truth
  | .isUnsatWith fs => (s.isUnsatWith fs).map .truth
  | .unsatCore fs => (s.unsatCoreOver fs).map .core

def run (s : Session σ) (calls : List Call) : List (Except Failure Answer) × Session σ :=
  runCalls call s calls

omit [Prover σ] in
def events (s : Session σ) : Call → List Event
  | .add f => s.router.addEvents f
  | .query f => s.router.queryEvents f
  | .isUnsat => s.router.unsatEvents
  | _ => []

end Session

end IntervalPruning
