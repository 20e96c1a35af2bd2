import IntervalPruning.Proofs.Interval.Spans
import IntervalPruning.Proofs.Ranges

/-!
# IntervalPruning.Proofs.Interval.Verdict

Nothing that two intervals settle is missed. By `Rel.holds_of_decide` a verdict is right; here
there is one whenever the relation has the same truth value for all pairs of values.

For the order relations it is enough that the intervals span the values (`Rel.decide?_of_spans`):
if every value on the left is at most every value on the right, then the two ends that face each
other are values themselves. For `eq` this is not enough, since even and odd numbers are never equal
and yet have the same span. The members of an interval leave no gaps, however, and so two intervals
that share none lie one below the other (`Interval.apart_of_disjoint`). `Rel.decide?_exact` has all
five relations.
-/

namespace IntervalPruning

namespace Interval

variable {i j : Interval} {s t : Set Int}

namespace Spans

theorem exists_upper_eq_fin (h : i.Spans s) {k : Int} (hk : ∀ n ∈ s, n ≤ k) :
    ∃ n ∈ s, i.upper = .fin n := by
  obtain ⟨m, hm⟩ := h.upper.nonempty
  have hle : i.upper ≤ .fin k := h.upper.ge_of_forall_ge hk
  exact h.upper.exists_eq_fin (h.mem m hm).2 hle

theorem exists_lower_eq_fin (h : i.Spans s) {k : Int} (hk : ∀ n ∈ s, k ≤ n) :
    ∃ n ∈ s, i.lower = .fin n := by
  obtain ⟨m, hm⟩ := h.lower.nonempty
  have hle : .fin k ≤ i.lower := h.lower.le_of_forall_le hk
  exact h.lower.exists_eq_fin hle (h.mem m hm).1

theorem eq_point (h : i.Spans s) {k : Int} (hk : ∀ n ∈ s, n = k) : i = point k := by
  obtain ⟨lower, upper⟩ := i
  obtain ⟨m, hm, rfl⟩ := h.exists_lower_eq_fin fun n hn => (hk n hn).ge
  obtain ⟨n, hn, rfl⟩ := h.exists_upper_eq_fin fun n hn => (hk n hn).le
  rw [hk m hm, hk n hn]
  rfl

/-- The ends that face each other are values. -/
theorem exists_ends_eq_fin (hi : i.Spans s) (hj : j.Spans t) (h : ∀ m ∈ s, ∀ n ∈ t, m ≤ n) :
    ∃ m ∈ s, ∃ n ∈ t, i.upper = .fin m ∧ j.lower = .fin n := by
  obtain ⟨m₀, hm₀⟩ := hi.lower.nonempty
  obtain ⟨n₀, hn₀⟩ := hj.lower.nonempty
  obtain ⟨m, hm, hupper⟩ := hi.exists_upper_eq_fin fun m hm => h m hm n₀ hn₀
  obtain ⟨n, hn, hlower⟩ := hj.exists_lower_eq_fin fun n hn => h m₀ hm₀ n hn
  exact ⟨m, hm, n, hn, hupper, hlower⟩

theorem finLe_of_forall_le (hi : i.Spans s) (hj : j.Spans t) (h : ∀ m ∈ s, ∀ n ∈ t, m ≤ n) :
    i.upper.finLe j.lower = true := by
  obtain ⟨m, hm, n, hn, hupper, hlower⟩ := exists_ends_eq_fin hi hj h
  exact ExtInt.finLe_iff.2 ⟨m, n, hupper, hlower, h m hm n hn⟩

theorem finLt_of_forall_lt (hi : i.Spans s) (hj : j.Spans t) (h : ∀ m ∈ s, ∀ n ∈ t, m < n) :
    i.upper.finLt j.lower = true := by
  obtain ⟨m, hm, n, hn, hupper, hlower⟩ :=
    exists_ends_eq_fin hi hj fun m hm n hn => (h m hm n hn).le
  exact ExtInt.finLt_iff.2 ⟨m, n, hupper, hlower, h m hm n hn⟩

end Spans

theorem isProper_of_mem {n : Int} (h : n ∈ i) : i.IsProper := by
  constructor
  · intro he
    exact ExtInt.not_posInf_le_fin n (he ▸ h.1)
  · intro he
    exact ExtInt.not_fin_le_negInf n (he ▸ h.2)

/-- Two intervals without a common value, neither of them empty, lie one below the other. -/
theorem apart_of_disjoint {m n : Int} (hm : m ∈ i) (hn : n ∈ j) (h : ∀ k ∈ i, k ∉ j) :
    i.upper < j.lower ∨ j.upper < i.lower := by
  have hempty : (i ∩ j).IsEmpty := by
    by_contra hne
    obtain ⟨k, hk⟩ :=
      exists_mem_of_not_isEmpty (isProper_inter (isProper_of_mem hm) (isProper_of_mem hn)) hne
    obtain ⟨hki, hkj⟩ := mem_inter.1 hk
    exact h k hki hkj
  have hi : i.lower ≤ i.upper := hm.1.trans hm.2
  have hj : j.lower ≤ j.upper := hn.1.trans hn.2
  have hlt : min i.upper j.upper < max i.lower j.lower := hempty
  rcases lt_max_iff.1 hlt with hl | hl
  · rcases min_lt_iff.1 hl with hl | hl
    · exact absurd hl (not_lt_of_ge hi)
    · exact Or.inr hl
  · rcases min_lt_iff.1 hl with hl | hl
    · exact Or.inl hl
    · exact absurd hl (not_lt_of_ge hj)

/-- Values on both sides keep the ends from being infinite. -/
theorem finLt_of_lt {m n : Int} (hm : m ∈ i) (hn : n ∈ j) (h : i.upper < j.lower) :
    i.upper.finLt j.lower = true := by
  obtain ⟨k, hk⟩ := ExtInt.exists_eq_fin hm.2 (h.le.trans hn.1)
  obtain ⟨l, hl⟩ := ExtInt.exists_eq_fin (hm.2.trans h.le) hn.1
  rw [hk, hl] at h
  exact ExtInt.finLt_iff.2 ⟨k, l, hk, hl, ExtInt.fin_lt_fin.1 h⟩

end Interval

namespace Rel

variable {r : Rel} {i j : Interval} {s t : Set Int}

theorem always_of_forall_holds (hi : i.Spans s) (hj : j.Spans t)
    (h : ∀ m ∈ s, ∀ n ∈ t, r.holds m n = true) : r.always i j = true := by
  cases r with
  | lt => exact hi.finLt_of_forall_lt hj fun m hm n hn => of_decide_eq_true (h m hm n hn)
  | le => exact hi.finLe_of_forall_le hj fun m hm n hn => of_decide_eq_true (h m hm n hn)
  | gt => exact hj.finLt_of_forall_lt hi fun n hn m hm => of_decide_eq_true (h m hm n hn)
  | ge => exact hj.finLe_of_forall_le hi fun n hn m hm => of_decide_eq_true (h m hm n hn)
  | eq =>
    have heq : ∀ m ∈ s, ∀ n ∈ t, m = n := fun m hm n hn => of_decide_eq_true (h m hm n hn)
    obtain ⟨n, hn⟩ := hj.lower.nonempty
    obtain ⟨m, hm⟩ := hi.lower.nonempty
    have hpoint : i = .point n := hi.eq_point fun m hm => heq m hm n hn
    have hpoint' : j = .point m := hj.eq_point fun n hn => (heq m hm n hn).symm
    rw [heq m hm n hn] at hpoint'
    have hsome : (Interval.point n).point? = some n := Interval.point?_eq_some_iff.2 rfl
    simp [always, hpoint, hpoint', hsome]

theorem never_of_forall_not_holds (hr : r ≠ eq) (hi : i.Spans s) (hj : j.Spans t)
    (h : ∀ m ∈ s, ∀ n ∈ t, r.holds m n = false) : r.never i j = true := by
  unfold never
  cases hneg : r.negate? with
  | some r' =>
    refine always_of_forall_holds hi hj fun m hm n hn => ?_
    rw [holds_negate hneg, h m hm n hn, Bool.not_false]
  | none =>
    cases r with
    | eq => exact absurd rfl hr
    | _ => cases hneg

/-- Of the members only, not of any sets that the intervals span. -/
theorem never_eq_of_forall_ne (hi : ∃ m, m ∈ i) (hj : ∃ n, n ∈ j)
    (h : ∀ m ∈ i, ∀ n ∈ j, eq.holds m n = false) : eq.never i j = true := by
  obtain ⟨m, hm⟩ := hi
  obtain ⟨n, hn⟩ := hj
  have hdisjoint : ∀ k ∈ i, k ∉ j := fun k hki hkj => of_decide_eq_false (h k hki k hkj) rfl
  refine Bool.or_eq_true_iff.2 ?_
  rcases Interval.apart_of_disjoint hm hn hdisjoint with hlt | hgt
  · exact Or.inl (Interval.finLt_of_lt hm hn hlt)
  · exact Or.inr (Interval.finLt_of_lt hn hm hgt)

/-- The verdict, where a negative one is found whenever it is right. -/
theorem decide?_eq_some_iff (hi : i.Spans s) (hj : j.Spans t)
    (hnever : (∀ m ∈ s, ∀ n ∈ t, r.holds m n = false) → r.never i j = true) {b : Bool} :
    r.decide? i j = some b ↔ ∀ m ∈ s, ∀ n ∈ t, r.holds m n = b := by
  constructor
  · intro h m hm n hn
    exact holds_of_decide h (hi.mem m hm) (hj.mem n hn)
  · intro h
    cases b with
    | true => rw [decide?, if_pos (always_of_forall_holds hi hj h)]
    | false =>
      obtain ⟨m, hm⟩ := hi.lower.nonempty
      obtain ⟨n, hn⟩ := hj.lower.nonempty
      have hno : ¬ r.always i j = true := fun hal =>
        Bool.false_ne_true ((h m hm n hn).symm.trans
          (holds_of_always hal (hi.mem m hm) (hj.mem n hn)))
      rw [decide?, if_neg hno, if_pos (hnever h)]

theorem decide?_of_spans (hr : r ≠ eq) (hi : i.Spans s) (hj : j.Spans t) {b : Bool} :
    r.decide? i j = some b ↔ ∀ m ∈ s, ∀ n ∈ t, r.holds m n = b :=
  decide?_eq_some_iff hi hj (never_of_forall_not_holds hr hi hj)

theorem decide?_of_members (hi : ∃ m, m ∈ i) (hj : ∃ n, n ∈ j) {b : Bool} :
    r.decide? i j = some b ↔ ∀ m ∈ i, ∀ n ∈ j, r.holds m n = b := by
  refine decide?_eq_some_iff (Interval.spans_members hi) (Interval.spans_members hj) fun h => ?_
  by_cases hr : r = eq
  · subst hr
    exact never_eq_of_forall_ne hi hj h
  · exact never_of_forall_not_holds hr (Interval.spans_members hi) (Interval.spans_members hj) h

/-- **The verdict on two intervals is exact.** It is the truth value that the relation has for all
pairs of their values, and there is none exactly if both truth values occur. -/
theorem decide?_exact (hi : ∃ m, m ∈ i) (hj : ∃ n, n ∈ j) (r : Rel) :
    (∀ b, r.decide? i j = some b ↔ ∀ m ∈ i, ∀ n ∈ j, r.holds m n = b) ∧
      (r.decide? i j = none ↔ ∀ b, ∃ m ∈ i, ∃ n ∈ j, r.holds m n = b) := by
  refine ⟨fun b => decide?_of_members hi hj, ?_⟩
  rw [Option.eq_none_iff_forall_ne_some]
  constructor
  · intro h b
    by_contra hno
    refine h (!b) ((decide?_of_members hi hj).2 fun m hm n hn => ?_)
    exact Bool.eq_not_of_ne fun hv => hno ⟨m, hm, n, hn, hv⟩
  · intro h b hb
    obtain ⟨m, hm, n, hn, hv⟩ := h (!b)
    rw [(decide?_of_members hi hj).1 hb m hm n hn] at hv
    exact Bool.not_ne_self b hv.symm

/-- Half-lines that meet in one value settle `≤`, and leave `==` open. -/
theorem decide?_exact_half_lines :
    let i : Interval := ⟨.negInf, .fin 3⟩
    let j : Interval := ⟨.fin 3, .posInf⟩
    ((∃ m, m ∈ i) ∧ ∃ n, n ∈ j) ∧
      (∀ m ∈ i, ∀ n ∈ j, le.holds m n = true) ∧
      (∀ b, ∃ m ∈ i, ∃ n ∈ j, eq.holds m n = b) := by
  intro i j
  have hi : ∃ m, m ∈ i := ⟨3, by decide⟩
  have hj : ∃ n, n ∈ j := ⟨3, by decide⟩
  exact ⟨⟨hi, hj⟩, ((decide?_exact hi hj le).1 true).1 (by decide),
    (decide?_exact hi hj eq).2.1 (by decide)⟩

end Rel

end IntervalPruning
