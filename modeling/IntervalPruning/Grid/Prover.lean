import IntervalPruning.Grid.Search
import IntervalPruning.Prover.Basic
import IntervalPruning.Scopes

/-!
# IntervalPruning.Grid.Prover

The prover that searches the grid. It is exact about solutions within its radius and knows of no
others. An unsatisfiable core is found by leaving out one assumption after the other, for good
where the rest is still unsatisfiable.
-/

namespace IntervalPruning

structure GridProver where
  radius : Int
  scopes : Scopes Formula := .empty
  deriving DecidableEq

namespace GridProver

def asserted (p : GridProver) : List Formula := p.scopes.toList

def solve (p : GridProver) (fs : List Formula) : Option Grid.Assignment := Grid.solve p.radius fs

def unsatWith (p : GridProver) (fs : List Formula) : Bool := (p.solve (p.asserted ++ fs)).isNone

/-- Goes through the second list; what has to stay joins the first. -/
def shrink (unsat : List Formula → Bool) (kept : List Formula) : List Formula → List Formula
  | [] => kept
  | f :: fs =>
    if unsat (kept ++ fs) then shrink unsat kept fs else shrink unsat (kept ++ [f]) fs

def core? (p : GridProver) (assumptions : List Formula) : Option (List Formula) :=
  if p.unsatWith assumptions then some (shrink p.unsatWith [] assumptions) else none

instance : Prover GridProver where
  assert p f := .ok () { p with scopes := p.scopes.add f }
  push p := { p with scopes := p.scopes.push }
  pop p :=
    match p.scopes.pop? with
    | some s => .ok () { p with scopes := s }
    | none => .fail (.solver "pop without matching push") p
  isUnsat p := .ok (p.unsatWith []) p
  isUnsatWith p fs := .ok (p.unsatWith fs) p
  unsatCore p fs := .ok (p.core? fs) p

end GridProver

end IntervalPruning
