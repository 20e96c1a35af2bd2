import IntervalPruning.Interval.Basic
import IntervalPruning.Var

/-!
# IntervalPruning.Term

Integer expressions over variables, with two readings of the same tree:

* `eval`     — the value, when each variable has a value;
* `interval` — an interval, when each variable has an interval.

Mathematical meaning: an operation of `Arith` acts on integers and, end by end, on intervals.
-/

namespace IntervalPruning

inductive Arith where
  | add
  | sub
  | mul
  deriving DecidableEq, Repr

namespace Arith

def apply {α : Type} [Add α] [Sub α] [Mul α] : Arith → α → α → α
  | add, a, b => a + b
  | sub, a, b => a - b
  | mul, a, b => a * b

def symbol : Arith → String
  | add => "+"
  | sub => "-"
  | mul => "*"

end Arith

inductive Term where
  | var (v : Var)
  | const (n : Int)
  | neg (t : Term)
  | bin (op : Arith) (s t : Term)
  deriving DecidableEq, Repr

namespace Term

/-- The number of nodes. -/
def size : Term → Nat
  | var _ => 1
  | const _ => 1
  | neg t => 1 + t.size
  | bin _ s t => 1 + s.size + t.size

def const? : Term → Option Int
  | const n => some n
  | _ => none

def eval (env : Var → Int) : Term → Int
  | var v => env v
  | const n => n
  | neg t => -t.eval env
  | bin op s t => op.apply (s.eval env) (t.eval env)

def interval (range : Var → Interval) : Term → Interval
  | var v => range v
  | const n => .point n
  | neg t => -t.interval range
  | bin op s t => op.apply (s.interval range) (t.interval range)

/-- The variables from left to right, once for each place. -/
def vars : Term → List Var
  | var v => [v]
  | const _ => []
  | neg t => t.vars
  | bin _ s t => s.vars ++ t.vars

theorem size_pos (t : Term) : 0 < t.size := by
  cases t <;> simp only [size] <;> omega

theorem const?_eq_some_iff {t : Term} {n : Int} : t.const? = some n ↔ t = const n := by
  cases t <;> simp [const?]

/-- The value depends on the variables that occur, and on nothing else. -/
theorem eval_congr {t : Term} {env env' : Var → Int} (h : ∀ v ∈ t.vars, env v = env' v) :
    t.eval env = t.eval env' := by
  induction t with
  | var v => exact h v (List.mem_singleton_self v)
  | const n => rfl
  | neg t ih => simp only [eval, ih h]
  | bin op s t ihs iht =>
    have hs := ihs fun v hv => h v (List.mem_append_left _ hv)
    have ht := iht fun v hv => h v (List.mem_append_right _ hv)
    simp only [eval, hs, ht]

end Term

end IntervalPruning
