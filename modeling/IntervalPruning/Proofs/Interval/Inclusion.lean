import IntervalPruning.Proofs.Interval.Nested
import IntervalPruning.Proofs.Interval.Spans
import IntervalPruning.Proofs.Ranges

/-!
# IntervalPruning.Proofs.Interval.Inclusion

The order of the intervals. It is read off the ends, and yet a proper interval lies within another
one exactly if all its members do (`Interval.subset_iff_forall_mem`): an interval with a member spans
its members, so where an end reached too far, a member would.

In this order the intersection is the meet and the hull the join (`subset_inter_iff`,
`hull_subset_iff`), whatever the intervals are. The empty ones lie below all others. There are many of
them, for none is ever replaced by another, and so the hull has to pass them over
(`hull_of_isEmpty_left`, `hull_of_isEmpty_right`): with the ends of an empty interval it would reach
too far.
-/

namespace IntervalPruning

namespace Interval

variable {i j k : Interval} {n : Int}

/-! ## Members -/

theorem subset_of_isEmpty (h : i.IsEmpty) (j : Interval) : i ⊆ j := Or.inl h

theorem subset_iff_of_not_isEmpty (h : ¬ i.IsEmpty) :
    i ⊆ j ↔ j.lower ≤ i.lower ∧ i.upper ≤ j.upper := or_iff_right h

theorem subset_refl (i : Interval) : i ⊆ i := Or.inr ⟨le_refl _, le_refl _⟩

theorem mem_of_subset (h : i ⊆ j) (hn : n ∈ i) : n ∈ j := (nested_iff.2 ⟨hn, h⟩).mem_of_nested

theorem subset_iff_forall_mem (hi : i.IsProper) : i ⊆ j ↔ ∀ n ∈ i, n ∈ j := by
  refine ⟨fun h n hn => mem_of_subset h hn, fun h => ?_⟩
  by_cases hempty : i.IsEmpty
  · exact subset_of_isEmpty hempty j
  · have hspans : i.Spans {n | n ∈ i} := spans_members (exists_mem_of_not_isEmpty hi hempty)
    exact hspans.leastAround.subset j h

/-! ## Meet and join -/

theorem subset_inter_iff : k ⊆ i ∩ j ↔ k ⊆ i ∧ k ⊆ j := by
  by_cases hk : k.IsEmpty
  · exact iff_of_true (subset_of_isEmpty hk _) ⟨subset_of_isEmpty hk i, subset_of_isEmpty hk j⟩
  · rw [subset_iff_of_not_isEmpty hk, subset_iff_of_not_isEmpty hk, subset_iff_of_not_isEmpty hk,
      lower_inter, upper_inter, max_le_iff, le_min_iff]
    exact and_and_and_comm

theorem hull_of_isEmpty_left (h : i.IsEmpty) (j : Interval) : i.hull j = j := if_pos h

theorem hull_of_isEmpty_right (hi : ¬ i.IsEmpty) (hj : j.IsEmpty) : i.hull j = i :=
  (if_neg hi).trans (if_pos hj)

theorem hull_of_not_isEmpty (hi : ¬ i.IsEmpty) (hj : ¬ j.IsEmpty) :
    i.hull j = ⟨min i.lower j.lower, max i.upper j.upper⟩ := (if_neg hi).trans (if_neg hj)

theorem not_isEmpty_hull (hi : ¬ i.IsEmpty) (j : Interval) : ¬ (i.hull j).IsEmpty := by
  by_cases hj : j.IsEmpty
  · rw [hull_of_isEmpty_right hi hj]
    exact hi
  · rw [hull_of_not_isEmpty hi hj]
    have hle : i.lower ≤ i.upper := not_lt.1 hi
    exact not_lt.2 ((min_le_left _ _).trans (hle.trans (le_max_left _ _)))

theorem hull_subset_iff : i.hull j ⊆ k ↔ i ⊆ k ∧ j ⊆ k := by
  by_cases hi : i.IsEmpty
  · rw [hull_of_isEmpty_left hi]
    exact (and_iff_right (subset_of_isEmpty hi k)).symm
  by_cases hj : j.IsEmpty
  · rw [hull_of_isEmpty_right hi hj]
    exact (and_iff_left (subset_of_isEmpty hj k)).symm
  rw [subset_iff_of_not_isEmpty (not_isEmpty_hull hi j), hull_of_not_isEmpty hi hj,
    subset_iff_of_not_isEmpty hi, subset_iff_of_not_isEmpty hj, le_min_iff, max_le_iff]
  exact and_and_and_comm

theorem subset_hull (i j : Interval) : i ⊆ i.hull j ∧ j ⊆ i.hull j :=
  hull_subset_iff.1 (subset_refl _)

/-- **The order of intervals is the inclusion of their members, with intersection as meet and hull as
join.** A proper interval lies within another one exactly if its members do, and its ends have
crossed exactly if it has no members. An intersection has the common members, and what lies within
it is what lies within both parts; what a hull lies within is what both parts lie within. -/
theorem inclusion_order (hi : i.IsProper) (j k : Interval) :
    ((i ⊆ j ↔ ∀ n ∈ i, n ∈ j) ∧ (i.IsEmpty ↔ ∀ n, n ∉ i)) ∧
      ((∀ n, n ∈ i ∩ j ↔ n ∈ i ∧ n ∈ j) ∧ (k ⊆ i ∩ j ↔ k ⊆ i ∧ k ⊆ j)) ∧
      (i.hull j ⊆ k ↔ i ⊆ k ∧ j ⊆ k) ∧ i ⊆ i.hull j ∧ j ⊆ i.hull j :=
  ⟨⟨subset_iff_forall_mem hi, isEmpty_iff_forall_not_mem hi⟩,
    ⟨fun _ => mem_inter, subset_inter_iff⟩, hull_subset_iff, subset_hull i j⟩

/-- The ends of `[9, 6]` are passed over by the hull, and the half-line meets it in `[9, 4]`. -/
theorem inclusion_order_crossed :
    let i : Interval := ⟨.negInf, .fin 4⟩
    let j : Interval := ⟨.fin 9, .fin 6⟩
    let k : Interval := ⟨.negInf, .fin 5⟩
    i.IsProper ∧ i ∩ j = ⟨.fin 9, .fin 4⟩ ∧ i.hull j = i ∧ ¬ i ⊆ j ∧
      (i ⊆ j ↔ ∀ n ∈ i, n ∈ j) ∧ (i.hull j ⊆ k ↔ i ⊆ k ∧ j ⊆ k) ∧ j ⊆ i.hull j := by
  intro i j k
  have hi : i.IsProper := ⟨nofun, nofun⟩
  obtain ⟨⟨hsubset, -⟩, -, hhull, -, hj⟩ := inclusion_order hi j k
  exact ⟨hi, by decide, by decide, by decide, hsubset, hhull, hj⟩

end Interval

end IntervalPruning
