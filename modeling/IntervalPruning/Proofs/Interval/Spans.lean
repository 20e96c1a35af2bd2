import IntervalPruning.Proofs.Interval.Arithmetic
import Mathlib.Algebra.Ring.Int.Defs
import Mathlib.Algebra.Ring.Pointwise.Set

/-!
# IntervalPruning.Proofs.Interval.Spans

When an interval is as small as it can be. `i.Spans s` says that all members of the set `s` lie in
`i`, and that `s` comes up to both ends of `i`: a finite end is a member of `s`, and towards an
infinite one the members go on without end (`Approaches`). Then every interval around `s` has `i`
within it (`Spans.leastAround`).

An interval spans its own members (`spans_members`), and calculating keeps the relation, although
the values that come out may have gaps between them: where `i` spans `s` and `j` spans `t`, the
interval `i * j` spans the products of `s` and `t` (`Spans.mul`, and `Spans.apply` for every
operation). Hence `Interval.leastAround_arithmetic`: calculating with two intervals loses nothing.
-/

namespace IntervalPruning

open scoped Pointwise

/-- A finite end is a member; towards an infinite one there is a member beyond every integer. -/
def Approaches (s : Set Int) : ExtInt → Prop
  | .negInf => ∀ k, ∃ n ∈ s, n ≤ k
  | .fin n => n ∈ s
  | .posInf => ∀ k, ∃ n ∈ s, k ≤ n

namespace Approaches

variable {s t : Set Int} {a b : ExtInt}

theorem nonempty (h : Approaches s a) : s.Nonempty := by
  cases a with
  | fin n => exact ⟨n, h⟩
  | _ =>
    obtain ⟨n, hn, -⟩ := h 0
    exact ⟨n, hn⟩

/-- An end between two integers is a member. -/
theorem exists_eq_fin (h : Approaches s a) {m n : Int} (hm : .fin m ≤ a) (hn : a ≤ .fin n) :
    ∃ k ∈ s, a = .fin k := by
  obtain ⟨k, rfl⟩ := ExtInt.exists_eq_fin hm hn
  exact ⟨k, h, rfl⟩

theorem neg (h : Approaches s a) : Approaches (-s) (-a) := by
  cases a with
  | fin n => exact Set.neg_mem_neg.2 h
  | negInf =>
    intro k
    obtain ⟨n, hn, hnk⟩ := h (-k)
    exact ⟨-n, Set.neg_mem_neg.2 hn, by omega⟩
  | posInf =>
    intro k
    obtain ⟨n, hn, hkn⟩ := h (-k)
    exact ⟨-n, Set.neg_mem_neg.2 hn, by omega⟩

/-- What lies below all members lies below all that they approach. -/
theorem le_of_forall_le (h : Approaches s a) (hb : ∀ n ∈ s, b ≤ .fin n) : b ≤ a := by
  cases a with
  | posInf => exact ExtInt.le_posInf b
  | fin n => exact hb n h
  | negInf =>
    cases b with
    | negInf => exact le_refl _
    | posInf =>
      obtain ⟨n, hn, -⟩ := h 0
      exact (hb n hn).elim
    | fin k =>
      obtain ⟨n, hn, hnk⟩ := h (k - 1)
      have hkn := ExtInt.fin_le_fin.1 (hb n hn)
      omega

theorem ge_of_forall_ge (h : Approaches s a) (hb : ∀ n ∈ s, .fin n ≤ b) : a ≤ b := by
  have hneg : -b ≤ -a := h.neg.le_of_forall_le fun n hn => by
    have hn' := ExtInt.neg_le_neg (hb (-n) (Set.mem_neg.1 hn))
    rwa [ExtInt.neg_fin, neg_neg] at hn'
  have h' := ExtInt.neg_le_neg hneg
  rwa [ExtInt.neg_neg, ExtInt.neg_neg] at h'

theorem posInf_add (ha : Approaches s .posInf) (ht : t.Nonempty) :
    Approaches (s + t) .posInf := by
  intro k
  obtain ⟨n, hn⟩ := ht
  obtain ⟨m, hm, hkm⟩ := ha (k - n)
  exact ⟨m + n, Set.add_mem_add hm hn, by omega⟩

theorem negInf_add (ha : Approaches s .negInf) (ht : t.Nonempty) :
    Approaches (s + t) .negInf := by
  have h := (posInf_add ha.neg ht.neg).neg
  rwa [neg_add, neg_neg, neg_neg] at h

/-- Opposite infinities are no exception: the sums approach both of them. -/
theorem add (ha : Approaches s a) (hb : Approaches t b) : Approaches (s + t) (a + b) := by
  cases a with
  | negInf =>
    cases b with
    | posInf => exact add_comm t s ▸ posInf_add hb ha.nonempty
    | _ => exact negInf_add ha hb.nonempty
  | fin m =>
    cases b with
    | negInf => exact add_comm t s ▸ negInf_add hb ha.nonempty
    | fin n => exact Set.add_mem_add ha hb
    | posInf => exact add_comm t s ▸ posInf_add hb ha.nonempty
  | posInf => cases b <;> exact posInf_add ha hb.nonempty

theorem exists_pos (h : Approaches s a) (ha : 0 < a.sign) : ∃ n ∈ s, 0 < n := by
  cases a with
  | negInf => exact absurd ha (by decide)
  | fin n => exact ⟨n, h, Int.sign_pos_iff.1 ha⟩
  | posInf => exact h 1

/-- One positive factor is enough to carry `t` beyond every integer. -/
theorem mul_posInf_of_pos (ha : Approaches s a) (hb : Approaches t .posInf) (hsign : 0 < a.sign) :
    Approaches (s * t) (a * .posInf) := by
  rw [ExtInt.mul_posInf, ExtInt.infinity, if_neg (by omega), if_pos hsign]
  intro k
  obtain ⟨m, hm, hpos⟩ := ha.exists_pos hsign
  obtain ⟨n, hn, hkn⟩ := hb (max k 0)
  refine ⟨m * n, Set.mul_mem_mul hm hn, ?_⟩
  calc k ≤ 1 * n := by omega
    _ ≤ m * n := Int.mul_le_mul_of_nonneg_right hpos (by omega)

theorem mul_posInf (ha : Approaches s a) (hb : Approaches t .posInf) :
    Approaches (s * t) (a * .posInf) := by
  rcases Int.lt_trichotomy a.sign 0 with hneg | hzero | hpos
  · have h := (ha.neg.mul_posInf_of_pos hb (by rw [ExtInt.sign_neg]; omega)).neg
    rwa [neg_mul, neg_neg, ExtInt.mul_comm, ExtInt.mul_neg, ExtInt.neg_neg, ExtInt.mul_comm] at h
  · cases a with
    | fin m =>
      obtain rfl : m = 0 := Int.sign_eq_zero_iff_zero.1 hzero
      obtain ⟨n, hn⟩ := hb.nonempty
      exact ⟨0, ha, n, hn, Int.zero_mul n⟩
    | _ => exact absurd hzero (by decide)
  · exact ha.mul_posInf_of_pos hb hpos

theorem mul_negInf (ha : Approaches s a) (hb : Approaches t .negInf) :
    Approaches (s * t) (a * .negInf) := by
  have h := (ha.mul_posInf hb.neg).neg
  rwa [mul_neg, neg_neg, ← ExtInt.mul_neg, ExtInt.neg_posInf] at h

theorem mul (ha : Approaches s a) (hb : Approaches t b) : Approaches (s * t) (a * b) := by
  cases b with
  | negInf => exact ha.mul_negInf hb
  | posInf => exact ha.mul_posInf hb
  | fin n =>
    rw [ExtInt.mul_comm, mul_comm]
    cases a with
    | negInf => exact mul_negInf (a := .fin n) hb ha
    | posInf => exact mul_posInf (a := .fin n) hb ha
    | fin m => exact Set.mul_mem_mul hb ha

end Approaches

theorem approaches_min {s : Set Int} {a b : ExtInt} (ha : Approaches s a) (hb : Approaches s b) :
    Approaches s (min a b) := by
  rcases min_choice a b with h | h
  · rwa [h]
  · rwa [h]

theorem approaches_max {s : Set Int} {a b : ExtInt} (ha : Approaches s a) (hb : Approaches s b) :
    Approaches s (max a b) := by
  rcases max_choice a b with h | h
  · rwa [h]
  · rwa [h]

namespace Interval

/-- The least interval that holds all members of a set. -/
structure LeastAround (i : Interval) (s : Set Int) : Prop where
  mem : ∀ n ∈ s, n ∈ i
  subset : ∀ k : Interval, (∀ n ∈ s, n ∈ k) → i ⊆ k

structure Spans (i : Interval) (s : Set Int) : Prop where
  mem : ∀ n ∈ s, n ∈ i
  lower : Approaches s i.lower
  upper : Approaches s i.upper

theorem spans_point (n : Int) : (point n).Spans {n} where
  mem _ h := mem_point.2 h
  lower := rfl
  upper := rfl

theorem spans_members {i : Interval} (h : ∃ n, n ∈ i) : i.Spans {n | n ∈ i} := by
  obtain ⟨lower, upper⟩ := i
  obtain ⟨n, hn⟩ := h
  refine ⟨fun _ hm => hm, ?_, ?_⟩
  · cases lower with
    | negInf =>
      intro k
      have hle : ExtInt.fin (min k n) ≤ .fin n := ExtInt.fin_le_fin.2 (by omega)
      exact ⟨min k n, ⟨ExtInt.negInf_le _, hle.trans hn.2⟩, by omega⟩
    | fin l => exact ⟨le_refl _, hn.1.trans hn.2⟩
    | posInf => exact hn.1.elim
  · cases upper with
    | negInf => exact hn.2.elim
    | fin u => exact ⟨hn.1.trans hn.2, le_refl _⟩
    | posInf =>
      intro k
      have hle : ExtInt.fin n ≤ .fin (max k n) := ExtInt.fin_le_fin.2 (by omega)
      exact ⟨max k n, ⟨hn.1.trans hle, ExtInt.le_posInf _⟩, by omega⟩

namespace Spans

variable {i j : Interval} {s t : Set Int}

theorem leastAround (h : i.Spans s) : i.LeastAround s where
  mem := h.mem
  subset _ hk := Or.inr
    ⟨h.lower.le_of_forall_le fun n hn => (hk n hn).1,
      h.upper.ge_of_forall_ge fun n hn => (hk n hn).2⟩

theorem neg (h : i.Spans s) : (-i).Spans (-s) where
  mem n hn := by
    have hmem := mem_neg (h.mem (-n) (Set.mem_neg.1 hn))
    rwa [neg_neg] at hmem
  lower := h.upper.neg
  upper := h.lower.neg

theorem add (hi : i.Spans s) (hj : j.Spans t) : (i + j).Spans (s + t) where
  mem := by
    rintro _ ⟨m, hm, n, hn, rfl⟩
    exact mem_add (hi.mem m hm) (hj.mem n hn)
  lower := hi.lower.add hj.lower
  upper := hi.upper.add hj.upper

theorem sub (hi : i.Spans s) (hj : j.Spans t) : (i - j).Spans (s - t) := by
  rw [sub_eq_add_neg]
  exact hi.add hj.neg

/-- Whichever of the four products of ends is the least, it is approached. -/
theorem mul (hi : i.Spans s) (hj : j.Spans t) : (i * j).Spans (s * t) where
  mem := by
    rintro _ ⟨m, hm, n, hn, rfl⟩
    exact mem_mul (hi.mem m hm) (hj.mem n hn)
  lower :=
    approaches_min (approaches_min (approaches_min
      (hi.lower.mul hj.lower)
      (hi.lower.mul hj.upper))
      (hi.upper.mul hj.lower))
      (hi.upper.mul hj.upper)
  upper :=
    approaches_max (approaches_max (approaches_max
      (hi.lower.mul hj.lower)
      (hi.lower.mul hj.upper))
      (hi.upper.mul hj.lower))
      (hi.upper.mul hj.upper)

theorem apply (op : Arith) (hi : i.Spans s) (hj : j.Spans t) :
    (op.apply i j).Spans (op.apply s t) := by
  cases op with
  | add => exact hi.add hj
  | sub => exact hi.sub hj
  | mul => exact hi.mul hj

end Spans

/-- **Calculating with intervals is sound and optimal.** Where both intervals have a value, the sum,
the difference, the product and the negation are the least intervals around the results. -/
theorem leastAround_arithmetic {i j : Interval} (hi : ∃ n, n ∈ i) (hj : ∃ n, n ∈ j) :
    (i + j).LeastAround {n | ∃ u ∈ i, ∃ v ∈ j, u + v = n} ∧
      (i - j).LeastAround {n | ∃ u ∈ i, ∃ v ∈ j, u - v = n} ∧
      (i * j).LeastAround {n | ∃ u ∈ i, ∃ v ∈ j, u * v = n} ∧
      (-i).LeastAround {n | ∃ u ∈ i, -u = n} := by
  have si := spans_members hi
  have sj := spans_members hj
  refine ⟨(si.add sj).leastAround, (si.sub sj).leastAround, (si.mul sj).leastAround, ?_⟩
  have hneg := si.neg.leastAround
  rwa [← Set.image_neg_eq_neg] at hneg

/-- With `[0, 5]` and `[2, +∞)`: zero times an infinite end is the least product. -/
theorem leastAround_arithmetic_half_line :
    let i : Interval := ⟨.fin 0, .fin 5⟩
    let j : Interval := ⟨.fin 2, .posInf⟩
    ((∃ n, n ∈ i) ∧ ∃ n, n ∈ j) ∧
      LeastAround ⟨.fin 2, .posInf⟩ {n | ∃ u ∈ i, ∃ v ∈ j, u + v = n} ∧
      LeastAround ⟨.negInf, .fin 3⟩ {n | ∃ u ∈ i, ∃ v ∈ j, u - v = n} ∧
      LeastAround ⟨.fin 0, .posInf⟩ {n | ∃ u ∈ i, ∃ v ∈ j, u * v = n} ∧
      LeastAround ⟨.fin (-5), .fin 0⟩ {n | ∃ u ∈ i, -u = n} := by
  intro i j
  have hi : ∃ n, n ∈ i := ⟨0, by decide⟩
  have hj : ∃ n, n ∈ j := ⟨2, by decide⟩
  exact ⟨⟨hi, hj⟩, leastAround_arithmetic hi hj⟩

end Interval

end IntervalPruning
