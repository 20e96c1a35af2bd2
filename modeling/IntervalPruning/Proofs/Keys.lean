import Mathlib.Data.Finset.Card
import Mathlib.Data.List.Basic
import Mathlib.Data.List.Induction

/-!
# IntervalPruning.Proofs.Keys

Lists in which each key stands once: what is looked up in a list of pairs with different keys is
what stands there (`lookup_of_mem`), and a list without its later repetitions has no others
(`nodup_eraseDups`). Repetitions may be left out of the parts of a list before they are left out of
the whole (`eraseDups_append_eraseDups`, `eraseDups_flatMap_congr`), and what is left stands in the
order of the first places (`pairwise_idxOf_eraseDups`).
-/

namespace IntervalPruning

variable {α β : Type} [DecidableEq α]

theorem lookup_of_mem {es : List (α × β)} (h : (es.map Prod.fst).Nodup) {k : α} {b : β}
    (he : (k, b) ∈ es) : es.lookup k = some b := by
  induction es with
  | nil => cases he
  | cons e es ih =>
    obtain ⟨l, c⟩ := e
    obtain ⟨hl, hes⟩ := List.nodup_cons.1 h
    rcases List.mem_cons.1 he with heq | hmem
    · cases heq
      exact List.lookup_cons_self
    · have hne : k ≠ l := by
        rintro rfl
        exact hl (List.mem_map.2 ⟨(k, b), hmem, rfl⟩)
      rw [List.lookup_cons, beq_false_of_ne hne]
      exact ih hes hmem

theorem nodup_eraseDups (ks : List α) : ks.eraseDups.Nodup := by
  match ks with
  | [] => exact List.nodup_nil
  | k :: ks =>
    have hshort : (ks.filter fun l => !l == k).length < ks.length + 1 :=
      Nat.lt_succ_of_le (List.length_filter_le _ _)
    rw [List.eraseDups_cons, List.nodup_cons]
    refine ⟨?_, nodup_eraseDups _⟩
    intro h
    have hmem := List.mem_filter.1 (List.mem_eraseDups.1 h)
    rw [beq_self_eq_true] at hmem
    exact Bool.false_ne_true hmem.2
termination_by ks.length

theorem length_eraseDups (ks : List α) : ks.eraseDups.length = ks.toFinset.card := by
  have hset : ks.toFinset = ks.eraseDups.toFinset := by
    ext k
    simp
  rw [hset, List.toFinset_card_of_nodup (nodup_eraseDups ks)]

theorem eraseDups_of_nodup {ks : List α} (h : ks.Nodup) : ks.eraseDups = ks := by
  induction ks with
  | nil => rfl
  | cons k ks ih =>
    obtain ⟨hk, hks⟩ := List.nodup_cons.1 h
    have hfilter : (ks.filter fun l => !l == k) = ks := by
      refine List.filter_eq_self.2 fun l hl => ?_
      have hne : l ≠ k := fun heq => hk (heq ▸ hl)
      rw [beq_false_of_ne hne, Bool.not_false]
    rw [List.eraseDups_cons, hfilter, ih hks]

theorem eraseDups_concat (ks : List α) (k : α) :
    (ks ++ [k]).eraseDups = if k ∈ ks then ks.eraseDups else ks.eraseDups ++ [k] := by
  rw [List.eraseDups_append]
  by_cases hk : k ∈ ks
  · simp [List.removeAll, hk]
  · simp [List.removeAll, List.eraseDups_cons, hk]

/-- What is left stands in the order of the first places. -/
theorem pairwise_idxOf_eraseDups (ks : List α) :
    ks.eraseDups.Pairwise fun k l => ks.idxOf k < ks.idxOf l := by
  induction ks using List.reverseRecOn with
  | nil => exact List.Pairwise.nil
  | append_singleton ks m ih =>
    -- a later place moves none of the first ones
    have hold : ks.eraseDups.Pairwise fun k l => (ks ++ [m]).idxOf k < (ks ++ [m]).idxOf l := by
      refine ih.imp_of_mem fun {k l} hk hl hlt => ?_
      rw [List.idxOf_append_of_mem (List.mem_eraseDups.1 hk),
        List.idxOf_append_of_mem (List.mem_eraseDups.1 hl)]
      exact hlt
    rw [eraseDups_concat]
    by_cases hm : m ∈ ks
    · rw [if_pos hm]
      exact hold
    · rw [if_neg hm, List.pairwise_append]
      refine ⟨hold, List.pairwise_singleton _ _, ?_⟩
      intro k hk l hl
      have hmem : k ∈ ks := List.mem_eraseDups.1 hk
      rw [List.mem_singleton.1 hl, List.idxOf_append_of_mem hmem, List.idxOf_append_of_notMem hm,
        List.idxOf_cons_self]
      exact List.idxOf_lt_length_of_mem hmem

theorem eraseDups_eraseDups_append (ks ls : List α) :
    (ks.eraseDups ++ ls).eraseDups = (ks ++ ls).eraseDups := by
  induction ls using List.reverseRecOn with
  | nil => rw [List.append_nil, List.append_nil, eraseDups_of_nodup (nodup_eraseDups ks)]
  | append_singleton ls l ih =>
    rw [← List.append_assoc, ← List.append_assoc, eraseDups_concat, eraseDups_concat, ih]
    simp only [List.mem_append, List.mem_eraseDups]

theorem eraseDups_append_eraseDups (ks ls : List α) :
    (ks ++ ls.eraseDups).eraseDups = (ks ++ ls).eraseDups := by
  induction ls using List.reverseRecOn with
  | nil => rfl
  | append_singleton ls l ih =>
    rw [eraseDups_concat, ← List.append_assoc, eraseDups_concat]
    by_cases hl : l ∈ ls
    · rw [if_pos hl, if_pos (List.mem_append_right ks hl), ih]
    · rw [if_neg hl, ← List.append_assoc, eraseDups_concat, ih]
      simp only [List.mem_append, List.mem_eraseDups]

theorem eraseDups_flatMap_congr {fs : List β} {g h : β → List α}
    (heq : ∀ f, (g f).eraseDups = (h f).eraseDups) :
    (fs.flatMap g).eraseDups = (fs.flatMap h).eraseDups := by
  induction fs with
  | nil => rfl
  | cons f fs ih =>
    calc (g f ++ fs.flatMap g).eraseDups
        = ((g f).eraseDups ++ (fs.flatMap g).eraseDups).eraseDups := by
          rw [eraseDups_append_eraseDups, eraseDups_eraseDups_append]
      _ = ((h f).eraseDups ++ (fs.flatMap h).eraseDups).eraseDups := by rw [heq, ih]
      _ = (h f ++ fs.flatMap h).eraseDups := by
          rw [eraseDups_append_eraseDups, eraseDups_eraseDups_append]

end IntervalPruning
