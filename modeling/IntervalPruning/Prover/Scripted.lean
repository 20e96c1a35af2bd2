import IntervalPruning.Prover.Basic
import IntervalPruning.Scopes

/-!
# IntervalPruning.Prover.Scripted

A prover that solves nothing: it keeps what was asserted and gives the answer it was told to
give. It can be told to fail too; then each call fails in the same way and changes nothing,
except that scopes still open.
-/

namespace IntervalPruning

structure ScriptedProver where
  scopes : Scopes Formula := .empty
  /-- the answer to "is this unsatisfiable?" -/
  answer : Bool := false
  failure : Option Failure := none
  deriving DecidableEq

namespace ScriptedProver

variable {α : Type}

/-- The reply of `k`, unless the prover has been told to fail. -/
def unlessFailing (p : ScriptedProver) (k : Reply ScriptedProver α) : Reply ScriptedProver α :=
  match p.failure with
  | some e => .fail e p
  | none => k

def asserted (p : ScriptedProver) : List Formula := p.scopes.toList

instance : Prover ScriptedProver where
  assert p f := p.unlessFailing (.ok () { p with scopes := p.scopes.add f })
  push p := { p with scopes := p.scopes.push }
  pop p := p.unlessFailing <|
    match p.scopes.pop? with
    | some s => .ok () { p with scopes := s }
    | none => .fail (.solver "pop on empty stack") p
  isUnsat p := p.unlessFailing (.ok p.answer p)
  isUnsatWith p _ := p.unlessFailing (.ok p.answer p)
  unsatCore p fs := p.unlessFailing (.ok (if p.answer then some fs else none) p)

end ScriptedProver

end IntervalPruning
