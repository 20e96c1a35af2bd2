import IntervalPruning.Interval.Compare
import IntervalPruning.Proofs.ExtInt
import IntervalPruning.Term

/-!
# IntervalPruning.Proofs.Interval.Arithmetic

Calculating with intervals is sound: whatever the values of the operands are, the value of the
result lies in the interval of the result (`mem_neg`, `mem_add`, `mem_sub`, `mem_mul`, and
`Term.eval_mem_interval` for whole terms), and a verdict on two intervals is the verdict on every
pair of their values (`Rel.holds_of_decide`).

An empty interval needs no case of its own here, since it has no values.
-/

namespace IntervalPruning

namespace Interval

variable {i j : Interval} {m n : Int}

theorem mem_neg (h : n ∈ i) : -n ∈ -i :=
  ⟨ExtInt.neg_le_fin_neg h.2, ExtInt.fin_neg_le_neg h.1⟩

theorem mem_add (hm : m ∈ i) (hn : n ∈ j) : m + n ∈ i + j :=
  ⟨ExtInt.add_le_add hm.1 hn.1, ExtInt.add_le_add hm.2 hn.2⟩

theorem mem_sub (hm : m ∈ i) (hn : n ∈ j) : m - n ∈ i - j := by
  rw [Int.sub_eq_add_neg]
  exact mem_add hm (mem_neg hn)

/-- The product is compared with the products of one end and a value first, then those with the
products of two ends. -/
theorem mul_between {x y : ExtInt} (hx : i.lower ≤ x ∧ x ≤ i.upper)
    (hy : j.lower ≤ y ∧ y ≤ j.upper) : (i * j).lower ≤ x * y ∧ x * y ≤ (i * j).upper := by
  have inner : ∀ c, min (c * j.lower) (c * j.upper) ≤ c * y ∧
      c * y ≤ max (c * j.lower) (c * j.upper) := by
    intro c
    simp only [ExtInt.mul_comm c]
    exact ⟨ExtInt.min_mul_le hy.1 hy.2 c, ExtInt.mul_le_max hy.1 hy.2 c⟩
  have hlow := ExtInt.min_mul_le hx.1 hx.2 y
  have hupp := ExtInt.mul_le_max hx.1 hx.2 y
  have hl := inner i.lower
  have hu := inner i.upper
  constructor
  · show min (min (min _ _) _) _ ≤ _
    rw [min_assoc]
    exact (min_le_min hl.1 hu.1).trans hlow
  · show _ ≤ max (max (max _ _) _) _
    rw [max_assoc]
    exact hupp.trans (max_le_max hl.2 hu.2)

theorem mem_mul (hm : m ∈ i) (hn : n ∈ j) : m * n ∈ i * j := mul_between hm hn

theorem mem_apply (op : Arith) (hm : m ∈ i) (hn : n ∈ j) : op.apply m n ∈ op.apply i j := by
  cases op with
  | add => exact mem_add hm hn
  | sub => exact mem_sub hm hn
  | mul => exact mem_mul hm hn

end Interval

theorem Term.eval_mem_interval {t : Term} {env : Var → Int} {range : Var → Interval}
    (h : ∀ v ∈ t.vars, env v ∈ range v) : t.eval env ∈ t.interval range := by
  induction t with
  | var v => exact h v (List.mem_singleton_self v)
  | const n => exact Interval.mem_point.2 rfl
  | neg t ih => exact Interval.mem_neg (ih h)
  | bin op s t ihs iht =>
    have hs := ihs fun v hv => h v (List.mem_append_left _ hv)
    have ht := iht fun v hv => h v (List.mem_append_right _ hv)
    exact Interval.mem_apply op hs ht

namespace Rel

variable {r : Rel} {i j : Interval} {m n : Int}

theorem le_of_finLe {a b : ExtInt} (h : a.finLe b = true) (hm : .fin m ≤ a) (hn : b ≤ .fin n) :
    m ≤ n := by
  obtain ⟨k, l, rfl, rfl, hkl⟩ := ExtInt.finLe_iff.1 h
  rw [ExtInt.fin_le_fin] at hm hn
  omega

theorem lt_of_finLt {a b : ExtInt} (h : a.finLt b = true) (hm : .fin m ≤ a) (hn : b ≤ .fin n) :
    m < n := by
  obtain ⟨k, l, rfl, rfl, hkl⟩ := ExtInt.finLt_iff.1 h
  rw [ExtInt.fin_le_fin] at hm hn
  omega

theorem holds_of_always (h : r.always i j = true) (hm : m ∈ i) (hn : n ∈ j) :
    r.holds m n = true := by
  cases r with
  | lt => exact decide_eq_true (lt_of_finLt h hm.2 hn.1)
  | le => exact decide_eq_true (le_of_finLe h hm.2 hn.1)
  | gt => exact decide_eq_true (lt_of_finLt h hn.2 hm.1)
  | ge => exact decide_eq_true (le_of_finLe h hn.2 hm.1)
  | eq =>
    simp only [always, Bool.and_eq_true, decide_eq_true_eq] at h
    obtain ⟨k, hk⟩ := Option.isSome_iff_exists.1 h.1
    rw [← h.2, Interval.point?_eq_some_iff.1 hk, Interval.mem_point] at hn
    rw [Interval.point?_eq_some_iff.1 hk, Interval.mem_point] at hm
    exact decide_eq_true (hm.trans hn.symm)

theorem not_holds_of_never (h : r.never i j = true) (hm : m ∈ i) (hn : n ∈ j) :
    r.holds m n = false := by
  unfold never at h
  split at h
  · rename_i s hs
    have hneg := holds_negate hs m n
    rw [holds_of_always h hm hn] at hneg
    simpa using hneg.symm
  · rename_i hr
    have hne : m ≠ n := by
      rcases Bool.or_eq_true_iff.1 h with hlt | hgt
      · have := holds_of_always hlt hm hn
        simp only [holds, decide_eq_true_eq] at this
        omega
      · have := holds_of_always hgt hm hn
        simp only [holds, decide_eq_true_eq] at this
        omega
    cases r <;> simp [negate?] at hr
    exact decide_eq_false hne

theorem holds_of_decide {b : Bool} (h : r.decide? i j = some b) (hm : m ∈ i) (hn : n ∈ j) :
    r.holds m n = b := by
  unfold decide? at h
  split at h
  · rename_i hal; cases h
    exact holds_of_always hal hm hn
  · split at h
    · rename_i hnev; cases h
      exact not_holds_of_never hnev hm hn
    · cases h

end Rel

end IntervalPruning
