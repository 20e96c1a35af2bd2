/-!
# IntervalPruning.ExtInt

The integers with `-∞` below them and `+∞` above them, the ends of intervals:

* the order `-∞ < n < +∞`, with `min` and `max` taken from it;
* sums, differences and products, total on the infinities: `-∞ + +∞` is `+∞`, and zero
  times an infinity is zero;
* `finLe`, `finLt` compare finite ends only. An infinite end stands for a value that no
  integer reaches, so it is evidence for nothing.
-/

namespace IntervalPruning

inductive ExtInt where
  | negInf
  | fin (n : Int)
  | posInf
  deriving DecidableEq, Repr

namespace ExtInt

def Le : ExtInt → ExtInt → Prop
  | negInf, _ => True
  | fin m, fin n => m ≤ n
  | _, posInf => True
  | _, _ => False

def Lt : ExtInt → ExtInt → Prop
  | fin m, fin n => m < n
  | negInf, negInf => False
  | negInf, _ => True
  | fin _, posInf => True
  | _, _ => False

instance : LE ExtInt := ⟨Le⟩
instance : LT ExtInt := ⟨Lt⟩

instance decidableLe (a b : ExtInt) : Decidable (a ≤ b) :=
  match a, b with
  | negInf, _ => isTrue trivial
  | fin m, fin n => inferInstanceAs (Decidable (m ≤ n))
  | fin _, posInf => isTrue trivial
  | posInf, posInf => isTrue trivial
  | fin _, negInf => isFalse id
  | posInf, negInf => isFalse id
  | posInf, fin _ => isFalse id

instance decidableLt (a b : ExtInt) : Decidable (a < b) :=
  match a, b with
  | fin m, fin n => inferInstanceAs (Decidable (m < n))
  | negInf, negInf => isFalse id
  | negInf, fin _ => isTrue trivial
  | negInf, posInf => isTrue trivial
  | fin _, posInf => isTrue trivial
  | fin _, negInf => isFalse id
  | posInf, _ => isFalse id

instance : Min ExtInt := minOfLe
instance : Max ExtInt := maxOfLe
instance : Ord ExtInt := ⟨fun a b => compareOfLessAndEq a b⟩

@[simp] theorem negInf_le (a : ExtInt) : negInf ≤ a := trivial

@[simp] theorem le_posInf (a : ExtInt) : a ≤ posInf := by
  cases a <;> trivial

@[simp] theorem fin_le_fin {m n : Int} : fin m ≤ fin n ↔ m ≤ n := Iff.rfl

@[simp] theorem fin_lt_fin {m n : Int} : fin m < fin n ↔ m < n := Iff.rfl

@[simp] theorem not_fin_le_negInf (m : Int) : ¬ fin m ≤ negInf := id

@[simp] theorem not_posInf_le_fin (m : Int) : ¬ posInf ≤ fin m := id

@[simp] theorem not_posInf_le_negInf : ¬ posInf ≤ negInf := id

theorem lt_iff_not_ge {a b : ExtInt} : a < b ↔ ¬ b ≤ a := by
  cases a <;> cases b
  case fin.fin m n => exact Int.not_le.symm
  all_goals simp [LT.lt, Lt, LE.le, Le]

/-- The integer, when there is one. -/
def value? : ExtInt → Option Int
  | fin n => some n
  | _ => none

def isFinite : ExtInt → Bool
  | fin _ => true
  | _ => false

protected def neg : ExtInt → ExtInt
  | negInf => posInf
  | fin n => fin (-n)
  | posInf => negInf

/-- Opposite infinities add up to `+∞`; otherwise an infinite summand decides. -/
protected def add : ExtInt → ExtInt → ExtInt
  | fin m, fin n => fin (m + n)
  | negInf, posInf => posInf
  | posInf, negInf => posInf
  | negInf, _ => negInf
  | _, negInf => negInf
  | _, _ => posInf

def sign : ExtInt → Int
  | negInf => -1
  | fin n => n.sign
  | posInf => 1

/-- The infinity of the given sign; no sign gives zero. -/
def infinity (s : Int) : ExtInt :=
  if s = 0 then fin 0 else if 0 < s then posInf else negInf

/-- A product with an infinite factor is the infinity of the product of the signs, so zero
times an infinity is zero. -/
protected def mul : ExtInt → ExtInt → ExtInt
  | fin m, fin n => fin (m * n)
  | a, b => infinity (a.sign * b.sign)

instance : Neg ExtInt := ⟨ExtInt.neg⟩
instance : Add ExtInt := ⟨ExtInt.add⟩
instance : Sub ExtInt := ⟨fun a b => a + -b⟩
instance : Mul ExtInt := ⟨ExtInt.mul⟩

/-- One step up; the infinities stay. -/
def succ : ExtInt → ExtInt
  | fin n => fin (n + 1)
  | a => a

/-- One step down; the infinities stay. -/
def pred : ExtInt → ExtInt
  | fin n => fin (n - 1)
  | a => a

@[simp] theorem neg_fin (n : Int) : -fin n = fin (-n) := rfl

@[simp] theorem fin_mul_fin (m n : Int) : fin m * fin n = fin (m * n) := rfl

def finLe : ExtInt → ExtInt → Bool
  | fin m, fin n => decide (m ≤ n)
  | _, _ => false

def finLt : ExtInt → ExtInt → Bool
  | fin m, fin n => decide (m < n)
  | _, _ => false

theorem finLe_iff {a b : ExtInt} :
    a.finLe b = true ↔ ∃ m n, a = fin m ∧ b = fin n ∧ m ≤ n := by
  cases a <;> cases b <;> simp [finLe]

theorem finLt_iff {a b : ExtInt} :
    a.finLt b = true ↔ ∃ m n, a = fin m ∧ b = fin n ∧ m < n := by
  cases a <;> cases b <;> simp [finLt]

def text : ExtInt → String
  | negInf => "-∞"
  | fin n => toString n
  | posInf => "+∞"

end ExtInt

end IntervalPruning
