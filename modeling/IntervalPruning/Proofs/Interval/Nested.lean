import IntervalPruning.Proofs.Interval.Arithmetic

/-!
# IntervalPruning.Proofs.Interval.Nested

Calculating with narrower intervals. `Nested n i j` says that the value `n` lies in `i`, and `i`
within `j`. The operations keep it (`Nested.neg`, `Nested.apply`, and `Term.nested_interval` for
whole terms), so smaller intervals for the variables lead to a smaller interval for the term. What
was known before stays as it was: a point is the same point (`Nested.eq_point`), and a verdict is
the same verdict (`Rel.decide?_of_nested`).

The value is needed. Without one, the ends of `i` may have crossed, and a product of crossed ends
may lie outside the product of the wider intervals.
-/

namespace IntervalPruning

namespace Interval

structure Nested (n : Int) (i j : Interval) : Prop where
  mem : n ∈ i
  lower_le : j.lower ≤ i.lower
  le_upper : i.upper ≤ j.upper

theorem nested_iff {n : Int} {i j : Interval} : Nested n i j ↔ n ∈ i ∧ i ⊆ j := by
  constructor
  · intro h
    exact ⟨h.mem, Or.inr ⟨h.lower_le, h.le_upper⟩⟩
  · rintro ⟨hn, hempty | ⟨hl, hu⟩⟩
    · exact absurd (hn.1.trans hn.2) (not_le_of_gt hempty)
    · exact ⟨hn, hl, hu⟩

theorem Nested.refl {n : Int} {i : Interval} (h : n ∈ i) : Nested n i i := ⟨h, le_refl _, le_refl _⟩

namespace Nested

variable {i j i' j' : Interval} {m n : Int}

theorem mem_of_nested (h : Nested n i j) : n ∈ j :=
  ⟨h.lower_le.trans h.mem.1, h.mem.2.trans h.le_upper⟩

theorem neg (h : Nested n i j) : Nested (-n) (-i) (-j) where
  mem := mem_neg h.mem
  lower_le := ExtInt.neg_le_neg h.le_upper
  le_upper := ExtInt.neg_le_neg h.lower_le

theorem add (h : Nested m i j) (h' : Nested n i' j') : Nested (m + n) (i + i') (j + j') where
  mem := mem_add h.mem h'.mem
  lower_le := ExtInt.add_le_add h.lower_le h'.lower_le
  le_upper := ExtInt.add_le_add h.le_upper h'.le_upper

theorem sub (h : Nested m i j) (h' : Nested n i' j') : Nested (m - n) (i - i') (j - j') := by
  rw [Int.sub_eq_add_neg]
  exact h.add h'.neg

/-- Each end of the inner interval lies between the ends of the outer one. -/
theorem lower_between (h : Nested n i j) : j.lower ≤ i.lower ∧ i.lower ≤ j.upper :=
  ⟨h.lower_le, h.mem.1.trans h.mem_of_nested.2⟩

theorem upper_between (h : Nested n i j) : j.lower ≤ i.upper ∧ i.upper ≤ j.upper :=
  ⟨h.mem_of_nested.1.trans h.mem.2, h.le_upper⟩

theorem mul (h : Nested m i j) (h' : Nested n i' j') : Nested (m * n) (i * i') (j * j') where
  mem := mem_mul h.mem h'.mem
  lower_le :=
    le_min (le_min (le_min
      (mul_between h.lower_between h'.lower_between).1
      (mul_between h.lower_between h'.upper_between).1)
      (mul_between h.upper_between h'.lower_between).1)
      (mul_between h.upper_between h'.upper_between).1
  le_upper :=
    max_le (max_le (max_le
      (mul_between h.lower_between h'.lower_between).2
      (mul_between h.lower_between h'.upper_between).2)
      (mul_between h.upper_between h'.lower_between).2)
      (mul_between h.upper_between h'.upper_between).2

theorem apply (op : Arith) (h : Nested m i j) (h' : Nested n i' j') :
    Nested (op.apply m n) (op.apply i i') (op.apply j j') := by
  cases op with
  | add => exact h.add h'
  | sub => exact h.sub h'
  | mul => exact h.mul h'

/-- A point has no room for less. -/
theorem eq_point {k : Int} (h : Nested n i j) (hj : j = point k) : i = point k := by
  subst hj
  have hn : n = k := mem_point.1 h.mem_of_nested
  subst hn
  obtain ⟨lower, upper⟩ := i
  have hlower : lower = .fin n := le_antisymm h.mem.1 h.lower_le
  have hupper : upper = .fin n := le_antisymm h.le_upper h.mem.2
  rw [hlower, hupper]
  rfl

end Nested

end Interval

open IntervalPruning.Interval (Nested)

theorem Term.nested_interval {t : Term} {env : Var → Int} {narrow wide : Var → Interval}
    (h : ∀ v ∈ t.vars, Nested (env v) (narrow v) (wide v)) :
    Nested (t.eval env) (t.interval narrow) (t.interval wide) := by
  induction t with
  | var v => exact h v (List.mem_singleton_self v)
  | const n => exact Nested.refl (Interval.mem_point.2 rfl)
  | neg t ih => exact (ih h).neg
  | bin op s t ihs iht =>
    have hs := ihs fun v hv => h v (List.mem_append_left _ hv)
    have ht := iht fun v hv => h v (List.mem_append_right _ hv)
    exact hs.apply op ht

namespace Rel

variable {r : Rel} {i j i' j' : Interval} {m n : Int}

/-- Ends that are integers stay integers: the values `m` and `n` keep them from reaching an
infinity. -/
theorem exists_ends_of_nested (h : Nested m i j) (h' : Nested n i' j') {k l : Int}
    (hk : j.upper = .fin k) (hl : j'.lower = .fin l) :
    ∃ x y, i.upper = .fin x ∧ i'.lower = .fin y ∧ x ≤ k ∧ l ≤ y := by
  have hupper := h.le_upper
  have hlower := h'.lower_le
  rw [hk] at hupper
  rw [hl] at hlower
  obtain ⟨x, hx⟩ := ExtInt.exists_eq_fin h.mem.2 hupper
  obtain ⟨y, hy⟩ := ExtInt.exists_eq_fin hlower h'.mem.1
  rw [hx, ExtInt.fin_le_fin] at hupper
  rw [hy, ExtInt.fin_le_fin] at hlower
  exact ⟨x, y, hx, hy, hupper, hlower⟩

theorem finLe_of_nested (h : Nested m i j) (h' : Nested n i' j')
    (hle : j.upper.finLe j'.lower = true) : i.upper.finLe i'.lower = true := by
  obtain ⟨k, l, hk, hl, hkl⟩ := ExtInt.finLe_iff.1 hle
  obtain ⟨x, y, hx, hy, hxk, hly⟩ := exists_ends_of_nested h h' hk hl
  exact ExtInt.finLe_iff.2 ⟨x, y, hx, hy, by omega⟩

theorem finLt_of_nested (h : Nested m i j) (h' : Nested n i' j')
    (hlt : j.upper.finLt j'.lower = true) : i.upper.finLt i'.lower = true := by
  obtain ⟨k, l, hk, hl, hkl⟩ := ExtInt.finLt_iff.1 hlt
  obtain ⟨x, y, hx, hy, hxk, hly⟩ := exists_ends_of_nested h h' hk hl
  exact ExtInt.finLt_iff.2 ⟨x, y, hx, hy, by omega⟩

theorem always_of_nested (h : Nested m i j) (h' : Nested n i' j') (hal : r.always j j' = true) :
    r.always i i' = true := by
  cases r with
  | lt => exact finLt_of_nested h h' hal
  | le => exact finLe_of_nested h h' hal
  | gt => exact finLt_of_nested h' h hal
  | ge => exact finLe_of_nested h' h hal
  | eq =>
    simp only [always, Bool.and_eq_true, decide_eq_true_eq] at hal ⊢
    obtain ⟨k, hk⟩ := Option.isSome_iff_exists.1 hal.1
    have hj : j = .point k := Interval.point?_eq_some_iff.1 hk
    have hi := h.eq_point hj
    have hi' := h'.eq_point (hal.2.symm.trans hj)
    exact ⟨Option.isSome_iff_exists.2 ⟨k, Interval.point?_eq_some_iff.2 hi⟩, hi.trans hi'.symm⟩

theorem never_of_nested (h : Nested m i j) (h' : Nested n i' j') (hnev : r.never j j' = true) :
    r.never i i' = true := by
  unfold never at hnev ⊢
  cases hr : r.negate? with
  | some s =>
    rw [hr] at hnev
    exact always_of_nested h h' hnev
  | none =>
    rw [hr] at hnev
    rw [Bool.or_eq_true_iff] at hnev ⊢
    exact hnev.imp (always_of_nested h h') (always_of_nested h h')

/-- The two verdicts cannot be mixed up, since `m` and `n` are values on both sides. -/
theorem decide?_of_nested {b : Bool} (h : Nested m i j) (h' : Nested n i' j')
    (hd : r.decide? j j' = some b) : r.decide? i i' = some b := by
  unfold decide? at hd
  split at hd
  · rename_i hal; cases hd
    rw [decide?, if_pos (always_of_nested h h' hal)]
  · split at hd
    · rename_i hnev; cases hd
      have hno : ¬ r.always i i' = true := fun hal =>
        Bool.false_ne_true ((not_holds_of_never hnev h.mem_of_nested h'.mem_of_nested).symm.trans
          (holds_of_always hal h.mem h'.mem))
      rw [decide?, if_neg hno, if_pos (never_of_nested h h' hnev)]
    · cases hd

end Rel

end IntervalPruning
