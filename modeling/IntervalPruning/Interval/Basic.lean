import IntervalPruning.ExtInt
import IntervalPruning.Rel

/-!
# IntervalPruning.Interval.Basic

Sets of integers given by two ends. Mathematical meaning: `n ∈ i` says that `n` lies between
the ends, both included.

An interval whose ends have crossed holds no integer. It is kept with its ends as they are, so
that what squeezed it from each side stays visible; two such intervals may differ.
-/

namespace IntervalPruning

structure Interval where
  lower : ExtInt
  upper : ExtInt
  deriving DecidableEq, Repr

namespace Interval

instance : Membership Int Interval := ⟨fun i n => i.lower ≤ .fin n ∧ .fin n ≤ i.upper⟩

theorem mem_iff {i : Interval} {n : Int} : n ∈ i ↔ i.lower ≤ .fin n ∧ .fin n ≤ i.upper := Iff.rfl

instance (n : Int) (i : Interval) : Decidable (n ∈ i) :=
  inferInstanceAs (Decidable (_ ∧ _))

/-- All integers. -/
def top : Interval := ⟨.negInf, .posInf⟩

@[simp] theorem mem_top (n : Int) : n ∈ top := ⟨trivial, trivial⟩

def point (n : Int) : Interval := ⟨.fin n, .fin n⟩

@[simp] theorem mem_point {m n : Int} : m ∈ point n ↔ m = n :=
  ⟨fun h => Int.le_antisymm h.2 h.1, fun h => h ▸ ⟨Int.le_refl _, Int.le_refl _⟩⟩

theorem point_inj {m n : Int} : point m = point n ↔ m = n := by
  simp [point]

/-- The ends have crossed. -/
def IsEmpty (i : Interval) : Prop := i.upper < i.lower

instance (i : Interval) : Decidable i.IsEmpty := inferInstanceAs (Decidable (_ < _))

def IsTop (i : Interval) : Prop := i = top

instance (i : Interval) : Decidable i.IsTop := inferInstanceAs (Decidable (_ = _))

/-- The value, when the two ends are one and the same integer. -/
def point? : Interval → Option Int
  | ⟨.fin m, .fin n⟩ => if m = n then some m else none
  | _ => none

theorem point?_eq_some_iff {i : Interval} {n : Int} : i.point? = some n ↔ i = point n := by
  obtain ⟨l, u⟩ := i
  cases l <;> cases u <;> simp [point?, point]
  omega

/-- Set inclusion read off the ends: an empty interval lies in every other one. -/
instance : HasSubset Interval := ⟨fun i j => i.IsEmpty ∨ j.lower ≤ i.lower ∧ i.upper ≤ j.upper⟩

instance (i j : Interval) : Decidable (i ⊆ j) := inferInstanceAs (Decidable (_ ∨ _))

instance : Inter Interval := ⟨fun i j => ⟨max i.lower j.lower, min i.upper j.upper⟩⟩

@[simp] theorem lower_inter (i j : Interval) : (i ∩ j).lower = max i.lower j.lower := rfl

@[simp] theorem upper_inter (i j : Interval) : (i ∩ j).upper = min i.upper j.upper := rfl

/-- The least interval around both; an empty one adds nothing. -/
def hull (i j : Interval) : Interval :=
  if i.IsEmpty then j
  else if j.IsEmpty then i
  else ⟨min i.lower j.lower, max i.upper j.upper⟩

instance : Neg Interval := ⟨fun i => ⟨-i.upper, -i.lower⟩⟩
instance : Add Interval := ⟨fun i j => ⟨i.lower + j.lower, i.upper + j.upper⟩⟩
instance : Sub Interval := ⟨fun i j => i + -j⟩

/-- A product of two values lies between the least and the greatest product of two ends. -/
instance : Mul Interval := ⟨fun i j =>
  let a := i.lower * j.lower
  let b := i.lower * j.upper
  let c := i.upper * j.lower
  let d := i.upper * j.upper
  ⟨min (min (min a b) c) d, max (max (max a b) c) d⟩⟩

@[simp] theorem point_add_point (m n : Int) : point m + point n = point (m + n) := rfl

@[simp] theorem neg_point (n : Int) : -point n = point (-n) := rfl

@[simp] theorem point_sub_point (m n : Int) : point m - point n = point (m - n) := by
  show point m + -point n = _
  rw [neg_point, point_add_point, Int.sub_eq_add_neg]

/-- An empty interval is written with a falsum in front. -/
def text (i : Interval) : String :=
  (if i.IsEmpty then "⊥" else "") ++ "[" ++ i.lower.text ++ ", " ++ i.upper.text ++ "]"

end Interval

/-- The integers that stand in the relation to `k`. -/
def Rel.interval : Rel → Int → Interval
  | lt, k => ⟨.negInf, .fin (k - 1)⟩
  | le, k => ⟨.negInf, .fin k⟩
  | gt, k => ⟨.fin (k + 1), .posInf⟩
  | ge, k => ⟨.fin k, .posInf⟩
  | eq, k => .point k

theorem Rel.mem_interval {r : Rel} {n k : Int} : n ∈ r.interval k ↔ r.holds n k = true := by
  cases r with
  | lt =>
    simp only [Rel.interval, Rel.holds, Interval.mem_iff, ExtInt.negInf_le, ExtInt.fin_le_fin,
      true_and, decide_eq_true_eq]
    omega
  | gt =>
    simp only [Rel.interval, Rel.holds, Interval.mem_iff, ExtInt.le_posInf, ExtInt.fin_le_fin,
      and_true, decide_eq_true_eq]
    omega
  | eq => simp [Rel.interval, Rel.holds]
  | _ => simp [Rel.interval, Rel.holds, Interval.mem_iff]

end IntervalPruning
