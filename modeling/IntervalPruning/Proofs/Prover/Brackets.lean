import IntervalPruning.Prover.Basic
import Mathlib.Data.List.Induction

/-!
# IntervalPruning.Proofs.Prover.Brackets

The calls that open and close scopes, read as brackets. Nothing here knows of a stack:

* `Balanced cs`     — each scope that is opened in `cs` is closed there, and no other is.
* `Matched cs i j`  — the scope opened by call `i` is closed by call `j`, because what lies between
  them is balanced.
* `Unmatched cs i`  — the scope opened by call `i` stays open to the end.
* `Enclosed cs k`   — call `k` lies in a scope that is closed later.

All of it is reckoned by `height`, the number of scopes opened less the number of attempts to close
one. An attempt that fails lowers the height as well, so the height itself is not a depth; but nothing
is asked of it except to compare it at two places.
-/

namespace IntervalPruning

namespace Brackets

variable {cs ds : List Call} {c : Call} {i j k n : Nat}

def height (cs : List Call) (n : Nat) : Int :=
  ((cs.take n).count .push : Int) - (cs.take n).count .pop

structure Balanced (cs : List Call) : Prop where
  height_nonneg : ∀ n ≤ cs.length, 0 ≤ height cs n
  height_length : height cs cs.length = 0

instance (cs : List Call) : Decidable (Balanced cs) :=
  decidable_of_iff ((∀ n ≤ cs.length, 0 ≤ height cs n) ∧ height cs cs.length = 0)
    ⟨fun h => ⟨h.1, h.2⟩, fun h => ⟨h.1, h.2⟩⟩

structure Matched (cs : List Call) (i j : Nat) : Prop where
  opens : cs[i]? = some .push
  closes : cs[j]? = some .pop
  lt : i < j
  balanced : Balanced ((cs.take j).drop (i + 1))

instance (cs : List Call) (i j : Nat) : Decidable (Matched cs i j) :=
  decidable_of_iff (cs[i]? = some .push ∧ cs[j]? = some .pop ∧ i < j ∧
      Balanced ((cs.take j).drop (i + 1)))
    ⟨fun h => ⟨h.1, h.2.1, h.2.2.1, h.2.2.2⟩, fun h => ⟨h.1, h.2, h.3, h.4⟩⟩

def Unmatched (cs : List Call) (i : Nat) : Prop :=
  cs[i]? = some .push ∧ ∀ j < cs.length, ¬ Matched cs i j

instance (cs : List Call) (i : Nat) : Decidable (Unmatched cs i) :=
  inferInstanceAs (Decidable (_ ∧ _))

def Enclosed (cs : List Call) (k : Nat) : Prop :=
  ∃ i < k, ∃ j < cs.length, k < j ∧ Matched cs i j

instance (cs : List Call) (k : Nat) : Decidable (Enclosed cs k) :=
  inferInstanceAs (Decidable (∃ i < k, ∃ j < cs.length, k < j ∧ Matched cs i j))

/-! ## Heights -/

theorem height_append (h : n ≤ cs.length) (ds : List Call) :
    height (cs ++ ds) n = height cs n := by
  rw [height, height, List.take_append_of_le_length h]

theorem height_take (h : n ≤ k) (cs : List Call) : height (cs.take k) n = height cs n := by
  rw [height, height, List.take_take, Nat.min_eq_left h]

theorem height_succ (h : cs[n]? = some c) :
    height cs (n + 1) =
      height cs n + (if c = .push then 1 else 0) - (if c = .pop then 1 else 0) := by
  rw [height, height, List.take_add_one, h]
  simp only [Option.toList_some, List.count_append, List.count_singleton, beq_iff_eq]
  split <;> split <;> omega

theorem height_succ_of_push (h : cs[n]? = some .push) : height cs (n + 1) = height cs n + 1 := by
  rw [height_succ h]
  simp

theorem height_succ_of_pop (h : cs[n]? = some .pop) : height cs (n + 1) = height cs n - 1 := by
  rw [height_succ h]
  simp

theorem pop_of_height_lt (hn : n < cs.length) (h : height cs (n + 1) < height cs n) :
    cs[n]? = some .pop := by
  have hget : cs[n]? = some cs[n] := List.getElem?_eq_getElem hn
  rw [height_succ hget] at h
  by_cases hpop : cs[n] = .pop
  · rw [hget, hpop]
  · rw [if_neg hpop] at h
    split at h <;> omega

theorem height_drop (cs : List Call) (k n : Nat) :
    height (cs.drop k) n = height cs (k + n) - height cs k := by
  have hsplit : cs.take (k + n) = cs.take k ++ (cs.drop k).take n := List.take_add
  simp only [height, hsplit, List.count_append]
  omega

/-! ## Matching by heights -/

theorem balanced_drop_take_iff (hik : i ≤ k) (hk : k ≤ cs.length) :
    Balanced ((cs.take k).drop i) ↔
      height cs k = height cs i ∧ ∀ n, i ≤ n → n ≤ k → height cs i ≤ height cs n := by
  have hlength : ((cs.take k).drop i).length = k - i := by
    simp
    omega
  have hheight : ∀ n ≤ k - i,
      height ((cs.take k).drop i) n = height cs (i + n) - height cs i := by
    intro n hn
    rw [height_drop, height_take (by omega), height_take hik]
  constructor
  · intro h
    have hend := h.height_length
    rw [hlength, hheight _ (Nat.le_refl _), Nat.add_sub_cancel' hik] at hend
    refine ⟨by omega, fun n hin hnk => ?_⟩
    have hn := h.height_nonneg (n - i) (by omega)
    rw [hheight _ (by omega), Nat.add_sub_cancel' hin] at hn
    omega
  · rintro ⟨hend, hinner⟩
    constructor
    · intro n hn
      rw [hlength] at hn
      rw [hheight n hn]
      have := hinner (i + n) (by omega) (by omega)
      omega
    · rw [hlength, hheight _ (Nat.le_refl _), Nat.add_sub_cancel' hik]
      omega

theorem lt_length_of_getElem? (h : cs[n]? = some c) : n < cs.length :=
  (List.getElem?_eq_some_iff.1 h).1

theorem length_take_of_getElem? (h : cs[n]? = some c) : (cs.take n).length = n := by
  have := lt_length_of_getElem? h
  rw [List.length_take]
  omega

theorem matched_iff :
    Matched cs i j ↔ cs[i]? = some .push ∧ cs[j]? = some .pop ∧ i < j ∧
      height cs j = height cs (i + 1) ∧
      ∀ n, i < n → n ≤ j → height cs (i + 1) ≤ height cs n := by
  constructor
  · intro h
    have hj := lt_length_of_getElem? h.closes
    obtain ⟨heq, hle⟩ := (balanced_drop_take_iff h.lt (by omega)).1 h.balanced
    exact ⟨h.opens, h.closes, h.lt, heq, hle⟩
  · rintro ⟨hopens, hcloses, hlt, heq, hle⟩
    have hj := lt_length_of_getElem? hcloses
    exact ⟨hopens, hcloses, hlt, (balanced_drop_take_iff hlt (by omega)).2 ⟨heq, hle⟩⟩

/-- The first place below the height of the scope is reached by closing it. -/
theorem exists_matched_of_height_lt (hi : cs[i]? = some .push) (hin : i < n) (hn : n ≤ cs.length)
    (h : height cs n < height cs (i + 1)) : ∃ j, Matched cs i j := by
  induction n using Nat.strongRecOn with
  | _ n ih =>
    by_cases hearlier : ∃ m < n, i < m ∧ height cs m < height cs (i + 1)
    · obtain ⟨m, hmn, him, hm⟩ := hearlier
      exact ih m hmn him (by omega) hm
    · have habove : ∀ m < n, i < m → height cs (i + 1) ≤ height cs m := fun m hmn him =>
        Int.not_lt.1 fun hm => hearlier ⟨m, hmn, him, hm⟩
      have hne : n ≠ i + 1 := by
        rintro rfl
        omega
      obtain ⟨m, rfl⟩ : ∃ m, n = m + 1 := ⟨n - 1, by omega⟩
      have hm := habove m (by omega) (by omega)
      have hpop : cs[m]? = some .pop := pop_of_height_lt (by omega) (by omega)
      have hstep := height_succ_of_pop hpop
      refine ⟨m, matched_iff.2 ⟨hi, hpop, by omega, by omega, fun k hik hkm => ?_⟩⟩
      exact habove k (by omega) hik

theorem unmatched_iff :
    Unmatched cs i ↔ cs[i]? = some .push ∧
      ∀ n, i < n → n ≤ cs.length → height cs (i + 1) ≤ height cs n := by
  constructor
  · rintro ⟨hi, hno⟩
    refine ⟨hi, fun n hin hn => ?_⟩
    by_contra hlt
    obtain ⟨j, hj⟩ := exists_matched_of_height_lt hi hin hn (by omega)
    exact hno j (lt_length_of_getElem? hj.closes) hj
  · rintro ⟨hi, hle⟩
    refine ⟨hi, fun j hj hmatched => ?_⟩
    obtain ⟨-, hpop, hij, heq, -⟩ := matched_iff.1 hmatched
    have hbelow := hle (j + 1) (by omega) (by omega)
    rw [height_succ_of_pop hpop] at hbelow
    omega

theorem height_lt_of_unmatched (hi : Unmatched cs i) (hin : i < n) (hn : n ≤ cs.length) :
    height cs i < height cs n := by
  obtain ⟨hopens, hle⟩ := unmatched_iff.1 hi
  have hstep := height_succ_of_push hopens
  have := hle n hin hn
  omega

theorem length_take_of_unmatched (hi : Unmatched cs i) : (cs.take i).length = i :=
  length_take_of_getElem? hi.1

theorem unmatched_of_take (hi : Unmatched cs i) (hk : Unmatched (cs.take i) k) :
    Unmatched cs k := by
  obtain ⟨hopens, hle⟩ := unmatched_iff.1 hk
  have hki : k < i := by
    have := lt_length_of_getElem? hopens
    rwa [length_take_of_unmatched hi] at this
  rw [length_take_of_unmatched hi] at hle
  rw [List.getElem?_take_of_lt hki] at hopens
  refine unmatched_iff.2 ⟨hopens, fun n hkn hn => ?_⟩
  have hrise : ∀ m, k < m → m ≤ i → height cs (k + 1) ≤ height cs m := by
    intro m hkm hmi
    rw [← height_take hki, ← height_take hmi]
    exact hle m hkm hmi
  by_cases hni : n ≤ i
  · exact hrise n hkn hni
  · have := hrise i hki (Nat.le_refl i)
    have := height_lt_of_unmatched hi (by omega) hn
    omega

/-- What closes a scope is the first attempt that finds it open with nothing open in it. -/
theorem matched_iff_unmatched_take (hj : cs[j]? = some .pop) :
    Matched cs i j ↔ Unmatched (cs.take j) i ∧ height cs j = height cs (i + 1) := by
  have hlength := length_take_of_getElem? hj
  rw [matched_iff, unmatched_iff, hlength]
  constructor
  · rintro ⟨hopens, -, hij, heq, hle⟩
    refine ⟨⟨?_, fun n hin hnj => ?_⟩, heq⟩
    · rw [List.getElem?_take_of_lt hij]
      exact hopens
    · rw [height_take hnj, height_take hij]
      exact hle n hin hnj
  · rintro ⟨⟨hopens, hle⟩, heq⟩
    have hij : i < j := by
      have := lt_length_of_getElem? hopens
      omega
    rw [List.getElem?_take_of_lt hij] at hopens
    refine ⟨hopens, hj, hij, heq, fun n hin hnj => ?_⟩
    rw [← height_take hij, ← height_take hnj]
    exact hle n hin hnj

theorem matched_left_unique {i' : Nat} (h : Matched cs i j) (h' : Matched cs i' j) : i = i' := by
  obtain ⟨hopens, -, hij, heq, hle⟩ := matched_iff.1 h
  obtain ⟨hopens', -, hij', heq', hle'⟩ := matched_iff.1 h'
  have hstep := height_succ_of_push hopens
  have hstep' := height_succ_of_push hopens'
  rcases Nat.lt_trichotomy i i' with hlt | rfl | hlt
  · have := hle i' hlt (by omega)
    omega
  · rfl
  · have := hle' i hlt (by omega)
    omega

/-- A scope that was opened before one that stays open, and is closed, is closed before it. -/
theorem Matched.lt_of_unmatched (h : Matched cs i j) (hk : Unmatched cs k) (hik : i < k) :
    j < k := by
  obtain ⟨-, hcloses, hij, heq, hle⟩ := matched_iff.1 h
  rcases Nat.lt_trichotomy j k with hlt | rfl | hlt
  · exact hlt
  · rw [hk.1] at hcloses
    cases hcloses
  · have hrise := height_lt_of_unmatched hk hlt (Nat.le_of_lt (lt_length_of_getElem? hcloses))
    have := hle k hik (by omega)
    omega

/-! ## One more call -/

theorem height_concat (cs : List Call) (c : Call) :
    height (cs ++ [c]) (cs.length + 1) =
      height cs cs.length + (if c = .push then 1 else 0) - (if c = .pop then 1 else 0) := by
  rw [height_succ (List.getElem?_concat_length), height_append (Nat.le_refl _)]

theorem unmatched_concat_iff (hi : i < cs.length) :
    Unmatched (cs ++ [c]) i ↔
      Unmatched cs i ∧ height cs (i + 1) ≤ height (cs ++ [c]) (cs.length + 1) := by
  rw [unmatched_iff, unmatched_iff, List.getElem?_append_left hi, height_append (by omega),
    List.length_append, List.length_singleton, and_assoc]
  refine and_congr_right fun _ => ?_
  constructor
  · intro h
    refine ⟨fun n hin hn => ?_, h _ (by omega) (by omega)⟩
    rw [← height_append hn [c]]
    exact h n hin (by omega)
  · rintro ⟨hle, hlast⟩ n hin hn
    by_cases hend : n = cs.length + 1
    · rw [hend]
      exact hlast
    · rw [height_append (by omega)]
      exact hle n hin (by omega)

theorem unmatched_concat_self_iff : Unmatched (cs ++ [c]) cs.length ↔ c = .push := by
  rw [unmatched_iff, List.getElem?_concat_length]
  simp only [Option.some.injEq, List.length_append, List.length_singleton]
  refine and_iff_left fun n hlt hle => ?_
  obtain rfl : n = cs.length + 1 := by omega
  exact Int.le_refl _

theorem matched_concat_self_iff :
    Matched (cs ++ [.pop]) i cs.length ↔
      Unmatched cs i ∧ height cs cs.length = height cs (i + 1) := by
  rw [matched_iff_unmatched_take List.getElem?_concat_length, List.take_left]
  refine and_congr_right fun hi => ?_
  rw [height_append (Nat.le_refl _), height_append (lt_length_of_getElem? hi.1)]

theorem matched_append_iff (hj : j < cs.length) :
    Matched (cs ++ ds) i j ↔ Matched cs i j := by
  have hget : ∀ n ≤ j, (cs ++ ds)[n]? = cs[n]? := fun n hn =>
    List.getElem?_append_left (by omega)
  have htake : (cs ++ ds).take j = cs.take j := List.take_append_of_le_length (by omega)
  constructor
  · rintro ⟨hopens, hcloses, hlt, hbal⟩
    rw [hget _ (by omega)] at hopens hcloses
    exact ⟨hopens, hcloses, hlt, htake ▸ hbal⟩
  · rintro ⟨hopens, hcloses, hlt, hbal⟩
    rw [← hget _ (by omega)] at hopens hcloses
    exact ⟨hopens, hcloses, hlt, htake ▸ hbal⟩

theorem matched_of_balanced (h : Balanced ds) (cs : List Call) :
    Matched (cs ++ .push :: ds ++ [.pop]) cs.length (cs ++ .push :: ds).length := by
  have hinner : (cs ++ .push :: ds).drop (cs.length + 1) = ds := by simp [List.drop_append]
  refine ⟨by simp, by simp, by simp, ?_⟩
  rw [List.take_left, hinner]
  exact h

theorem enclosed_concat_iff :
    Enclosed (cs ++ [c]) k ↔
      Enclosed cs k ∨ ∃ i < k, k < cs.length ∧ Matched (cs ++ [c]) i cs.length := by
  constructor
  · rintro ⟨i, hik, j, hj, hkj, hm⟩
    rw [List.length_append, List.length_singleton] at hj
    by_cases hlast : j = cs.length
    · subst hlast
      exact Or.inr ⟨i, hik, hkj, hm⟩
    · have hj : j < cs.length := by omega
      exact Or.inl ⟨i, hik, j, hj, hkj, (matched_append_iff hj).1 hm⟩
  · rintro (⟨i, hik, j, hj, hkj, hm⟩ | ⟨i, hik, hk, hm⟩)
    · exact ⟨i, hik, j, by simp; omega, hkj, (matched_append_iff hj).2 hm⟩
    · exact ⟨i, hik, cs.length, by simp, hk, hm⟩

/-- Only a call that closes a scope encloses anything. -/
theorem enclosed_concat_iff_of_not_matched (h : ∀ i, ¬ Matched (cs ++ [c]) i cs.length) :
    Enclosed (cs ++ [c]) k ↔ Enclosed cs k := by
  rw [enclosed_concat_iff]
  exact or_iff_left fun ⟨i, _, _, hm⟩ => h i hm

theorem enclosed_concat_iff_of_matched (h : Matched (cs ++ [.pop]) i cs.length)
    (hk : k < cs.length) : Enclosed (cs ++ [.pop]) k ↔ Enclosed cs k ∨ i < k := by
  rw [enclosed_concat_iff]
  refine or_congr_right ⟨?_, fun hik => ⟨i, hik, hk, h⟩⟩
  rintro ⟨i', hik, -, hm⟩
  rw [matched_left_unique h hm]
  exact hik

/-- Up to a scope that stays open, no later call makes a difference. -/
theorem enclosed_take_iff (hi : Unmatched cs i) (hk : k < i) :
    Enclosed (cs.take i) k ↔ Enclosed cs k := by
  have hlength := length_take_of_unmatched hi
  have hmatched : ∀ {i' j : Nat}, j < i → (Matched (cs.take i) i' j ↔ Matched cs i' j) := by
    intro i' j hj
    have happend : Matched (cs.take i ++ cs.drop i) i' j ↔ Matched (cs.take i) i' j :=
      matched_append_iff (by omega)
    rw [List.take_append_drop] at happend
    exact happend.symm
  constructor
  · rintro ⟨i', hik, j, hj, hkj, hm⟩
    have hm := (hmatched (by omega)).1 hm
    exact ⟨i', hik, j, lt_length_of_getElem? hm.closes, hkj, hm⟩
  · rintro ⟨i', hik, j, hj, hkj, hm⟩
    have hji : j < i := hm.lt_of_unmatched hi (by omega)
    exact ⟨i', hik, j, by omega, hkj, (hmatched hji).2 hm⟩

end Brackets

end IntervalPruning
