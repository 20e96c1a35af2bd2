import IntervalPruning.ExtInt
import Mathlib.Order.Defs.LinearOrder
import Mathlib.Order.MinMax

/-!
# IntervalPruning.Proofs.ExtInt

The order of the extended integers is linear, and the operations respect it:

* `neg_le_neg`: a sign exchanges the two sides;
* `add_le_add`: a sum grows with its summands, also where an infinity meets the other one;
* `mul_le_mul_of_nonneg`, `mul_le_mul_of_nonpos`: a factor keeps or reverses the order, as its
  sign says. An infinite factor does so too, because zero times an infinity is zero;
* `min_mul_le`, `mul_le_max`: a product lies between two products, if one factor lies between
  theirs.
-/

namespace IntervalPruning

namespace ExtInt

instance : LinearOrder ExtInt where
  le_refl a := by
    cases a
    case fin n => exact Int.le_refl n
    all_goals trivial
  le_trans a b c hab hbc := by
    cases a <;> cases b <;> cases c
    case fin.fin.fin m n k => exact Int.le_trans hab hbc
    all_goals trivial
  le_antisymm a b hab hba := by
    cases a <;> cases b
    case fin.fin m n => rw [Int.le_antisymm hab hba]
    all_goals first | rfl | exact hab.elim | exact hba.elim
  le_total a b := by
    cases a <;> cases b
    case fin.fin m n => exact Int.le_total m n
    all_goals simp
  lt_iff_le_not_ge a b := by
    rw [lt_iff_not_ge, iff_and_self]
    intro h
    cases a <;> cases b
    case fin.fin m n => exact Int.le_of_lt (Int.not_le.1 h)
    all_goals first | trivial | exact absurd trivial h
  toDecidableLE := decidableLe
  toDecidableLT := decidableLt
  toDecidableEq := inferInstance

theorem exists_eq_fin {a : ExtInt} {m n : Int} (hm : fin m ≤ a) (hn : a ≤ fin n) :
    ∃ k, a = fin k := by
  cases a with
  | negInf => exact hm.elim
  | fin k => exact ⟨k, rfl⟩
  | posInf => exact hn.elim

/-! ## Signs and sums -/

@[simp] theorem neg_negInf : -negInf = posInf := rfl

@[simp] theorem neg_posInf : -posInf = negInf := rfl

@[simp] theorem neg_neg (a : ExtInt) : - -a = a := by
  cases a
  case fin n => exact congrArg fin (Int.neg_neg n)
  all_goals rfl

theorem neg_le_neg {a b : ExtInt} (h : a ≤ b) : -b ≤ -a := by
  cases a <;> cases b
  case fin.fin m n => exact Int.neg_le_neg h
  all_goals trivial

theorem neg_le_fin_neg {a : ExtInt} {n : Int} (h : fin n ≤ a) : -a ≤ fin (-n) := neg_le_neg h

theorem fin_neg_le_neg {a : ExtInt} {n : Int} (h : a ≤ fin n) : fin (-n) ≤ -a := neg_le_neg h

theorem add_le_add {a a' b b' : ExtInt} (ha : a ≤ a') (hb : b ≤ b') : a + b ≤ a' + b' := by
  cases a <;> cases a' <;> cases b <;> cases b'
  case fin.fin.fin.fin => exact Int.add_le_add ha hb
  all_goals trivial

/-! ## Products -/

theorem infinity_le_infinity {s t : Int} (h : s ≤ t) : infinity s ≤ infinity t := by
  unfold infinity
  split <;> split <;> (try split) <;> (try split)
  all_goals first | trivial | exact Int.le_refl 0 | omega

theorem infinity_neg (s : Int) : infinity (-s) = -infinity s := by
  unfold infinity
  split <;> split <;> (try split) <;> (try split)
  all_goals first | rfl | omega

theorem sign_le_sign {a b : ExtInt} (h : a ≤ b) : a.sign ≤ b.sign := by
  cases a <;> cases b
  case fin.fin m n =>
    rw [fin_le_fin] at h
    rcases Int.lt_trichotomy m 0 with hm | rfl | hm
    · rw [sign, Int.sign_eq_neg_one_of_neg hm]
      rcases Int.sign_trichotomy n with hn | hn | hn <;> simp [sign, hn]
    · exact Int.sign_nonneg_iff.2 h
    · rw [sign, sign, Int.sign_eq_one_of_pos hm, Int.sign_eq_one_of_pos (by omega)]
  case fin.negInf => exact h.elim
  case posInf.negInf => exact h.elim
  case posInf.fin => exact h.elim
  case negInf.fin n =>
    rcases Int.sign_trichotomy n with hn | hn | hn <;> simp [sign, hn]
  case fin.posInf n =>
    rcases Int.sign_trichotomy n with hn | hn | hn <;> simp [sign, hn]
  all_goals simp [sign]

theorem sign_neg (a : ExtInt) : (-a).sign = -a.sign := by
  cases a
  case fin n => exact Int.sign_neg n
  all_goals rfl

theorem mul_eq_infinity {a b : ExtInt} (h : a.value? = none ∨ b.value? = none) :
    a * b = infinity (a.sign * b.sign) := by
  cases a <;> cases b
  case fin.fin => simp [value?] at h
  all_goals rfl

theorem value?_neg_eq_none {a : ExtInt} : (-a).value? = none ↔ a.value? = none := by
  cases a <;> simp [value?]

theorem mul_comm (a b : ExtInt) : a * b = b * a := by
  by_cases h : a.value? = none ∨ b.value? = none
  · rw [mul_eq_infinity h, mul_eq_infinity h.symm, Int.mul_comm]
  · cases a <;> cases b
    case fin.fin m n => exact congrArg fin (Int.mul_comm m n)
    all_goals simp [value?] at h

theorem mul_neg (a b : ExtInt) : a * -b = -(a * b) := by
  by_cases h : a.value? = none ∨ b.value? = none
  · rw [mul_eq_infinity h, mul_eq_infinity (h.imp_right value?_neg_eq_none.2), sign_neg,
      Int.mul_neg, infinity_neg]
  · cases a <;> cases b
    case fin.fin m n => exact congrArg fin (Int.mul_neg m n)
    all_goals simp [value?] at h

theorem mul_posInf (a : ExtInt) : a * posInf = infinity a.sign := by
  rw [← Int.mul_one a.sign]
  cases a <;> rfl

@[simp] theorem mul_fin_zero (a : ExtInt) : a * fin 0 = fin 0 := by
  cases a
  case fin n => exact congrArg fin (Int.mul_zero n)
  all_goals rfl

theorem negInf_mul_fin {n : Int} (h : 0 < n) : negInf * fin n = negInf := by
  show infinity (-1 * n.sign) = negInf
  rw [Int.sign_eq_one_of_pos h]
  rfl

theorem posInf_mul_fin {n : Int} (h : 0 < n) : posInf * fin n = posInf := by
  show infinity (1 * n.sign) = posInf
  rw [Int.sign_eq_one_of_pos h]
  rfl

theorem mul_le_mul_of_nonneg {a b c : ExtInt} (h : a ≤ b) (hc : fin 0 ≤ c) : a * c ≤ b * c := by
  cases c with
  | negInf => exact hc.elim
  | posInf =>
    rw [mul_posInf, mul_posInf]
    exact infinity_le_infinity (sign_le_sign h)
  | fin k =>
    rw [fin_le_fin] at hc
    rcases Int.le_iff_lt_or_eq.1 hc with hk | rfl
    · cases a <;> cases b
      case fin.fin m n => exact Int.mul_le_mul_of_nonneg_right h hc
      all_goals simp_all [negInf_mul_fin, posInf_mul_fin]
    · rw [mul_fin_zero, mul_fin_zero]

theorem mul_le_mul_of_nonpos {a b c : ExtInt} (h : a ≤ b) (hc : c ≤ fin 0) : b * c ≤ a * c := by
  have hneg := neg_le_neg (mul_le_mul_of_nonneg h (fin_neg_le_neg hc))
  rwa [mul_neg, mul_neg, neg_neg, neg_neg] at hneg

theorem min_mul_le {a b x : ExtInt} (ha : a ≤ x) (hb : x ≤ b) (c : ExtInt) :
    min (a * c) (b * c) ≤ x * c := by
  rcases le_total (fin 0) c with hc | hc
  · exact min_le_of_left_le (mul_le_mul_of_nonneg ha hc)
  · exact min_le_of_right_le (mul_le_mul_of_nonpos hb hc)

theorem mul_le_max {a b x : ExtInt} (ha : a ≤ x) (hb : x ≤ b) (c : ExtInt) :
    x * c ≤ max (a * c) (b * c) := by
  rcases le_total (fin 0) c with hc | hc
  · exact le_max_of_le_right (mul_le_mul_of_nonneg hb hc)
  · exact le_max_of_le_left (mul_le_mul_of_nonpos ha hc)

end ExtInt

end IntervalPruning
