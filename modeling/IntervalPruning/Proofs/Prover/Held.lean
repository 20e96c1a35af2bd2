import IntervalPruning.Proofs.Prover.Brackets
import IntervalPruning.Scopes

/-!
# IntervalPruning.Proofs.Prover.Held

Which of the formulas that were handed over are still there. A stack of scopes that goes along with the
calls keeps the places of the calls in it, `marks`. The brackets say the same without a stack
(`toList_marks`): a place stays if no scope around it was closed.

Two facts carry this. A scope that is still open lies in the stack as deep as the height has risen since
(`outer_marks_of_unmatched`), so closing it leads back to the stack as it was before it was opened
(`marks_concat_of_matched`). And when there is something to close, the scope that was opened last is the one
(`exists_last_unmatched`).
-/

namespace IntervalPruning

namespace Scopes

variable {α : Type} {s : Scopes α} {as : List α} {ass : List (List α)}

theorem pop?_of_outer_eq_nil (h : s.outer = []) : s.pop? = none := by
  simp [pop?, h]

theorem pop?_of_outer_eq_cons (h : s.outer = as :: ass) : s.pop? = some ⟨as, ass⟩ := by
  simp [pop?, h]

end Scopes

/-- Induction where a longer list has the hypothesis for each prefix of what it extends. -/
theorem prefix_induction {α : Type} {motive : List α → Prop} (nil : motive [])
    (concat : ∀ cs c, (∀ ds, ds <+: cs → motive ds) → motive (cs ++ [c])) (cs : List α) :
    motive cs := by
  suffices h : ∀ ds, ds <+: cs → motive ds from h cs (List.prefix_refl cs)
  induction cs using List.reverseRecOn with
  | nil =>
    intro ds hds
    rw [List.prefix_nil.1 hds]
    exact nil
  | append_singleton cs c ih =>
    intro ds hds
    rcases List.prefix_concat_iff.1 hds with rfl | hds
    · exact concat cs c ih
    · exact ih ds hds

/-- The call hands over a formula. -/
def Call.tells : Call → Bool
  | add _ => true
  | query _ => true
  | _ => false

namespace Brackets

variable {cs : List Call} {c : Call} {s : Scopes Nat} {k p : Nat}

/-- The places of the calls that hand over a formula. -/
def tellings (cs : List Call) : List Nat :=
  (List.range cs.length).filter fun k => cs[k]?.any Call.tells

/-- Those of them that are not enclosed. -/
def held (cs : List Call) : List Nat := (tellings cs).filter fun k => ¬ Enclosed cs k

/-- The stack after the call at place `k`. An attempt to close the only scope changes nothing. -/
def mark (s : Scopes Nat) (k : Nat) (c : Call) : Scopes Nat :=
  if c.tells then s.add k
  else if c = .push then s.push
  else if c = .pop then s.pop?.getD s
  else s

/-- The places of the calls so far that hand over a formula, in the scopes in which they stand. -/
def marks (cs : List Call) : Scopes Nat :=
  cs.zipIdx.foldl (fun s e => mark s e.2 e.1) .empty

theorem marks_concat (cs : List Call) (c : Call) :
    marks (cs ++ [c]) = mark (marks cs) cs.length c := by
  simp [marks, List.zipIdx_append]

theorem mark_of_tells (h : c.tells = true) : mark s k c = s.add k := if_pos h

@[simp] theorem mark_push : mark s k .push = s.push := rfl

@[simp] theorem mark_pop : mark s k .pop = s.pop?.getD s := rfl

theorem outer_mark (s : Scopes Nat) (k : Nat) (hpush : c ≠ .push) (hpop : c ≠ .pop) :
    (mark s k c).outer = s.outer := by
  cases ht : c.tells with
  | true =>
    rw [mark_of_tells ht]
    rfl
  | false => simp [mark, ht, hpush, hpop]

theorem toList_mark (s : Scopes Nat) (k : Nat) (h : c ≠ .pop) :
    (mark s k c).toList = s.toList ++ if c.tells then [k] else [] := by
  cases c with
  | pop => exact absurd rfl h
  | _ => simp [mark, Call.tells]

theorem tells_iff_mem_tellings : k ∈ tellings cs ↔ ∃ c, cs[k]? = some c ∧ c.tells = true := by
  simp only [tellings, List.mem_filter, List.mem_range, Option.any_eq_true]
  constructor
  · exact fun h => h.2
  · rintro ⟨c, hc, ht⟩
    exact ⟨lt_length_of_getElem? hc, c, hc, ht⟩

theorem lt_length_of_mem_tellings (h : k ∈ tellings cs) : k < cs.length := by
  obtain ⟨c, hc, -⟩ := tells_iff_mem_tellings.1 h
  exact lt_length_of_getElem? hc

theorem tellings_append (cs ds : List Call) :
    tellings (cs ++ ds) = tellings cs ++ (tellings ds).map (cs.length + ·) := by
  rw [tellings, List.length_append, List.range_add, List.filter_append, List.filter_map]
  congr 1
  · refine List.filter_congr fun k hk => ?_
    rw [List.getElem?_append_left (List.mem_range.1 hk)]
  · refine congrArg _ (List.filter_congr fun k _ => ?_)
    show (cs ++ ds)[cs.length + k]?.any Call.tells = _
    rw [List.getElem?_append_right (Nat.le_add_right _ _), Nat.add_sub_cancel_left]

theorem tellings_concat (cs : List Call) (c : Call) :
    tellings (cs ++ [c]) = tellings cs ++ if c.tells then [cs.length] else [] := by
  have hlast : tellings [c] = if c.tells then [0] else [] := by
    cases h : c.tells <;> simp [tellings, List.range_succ, h]
  rw [tellings_append, hlast]
  cases c.tells <;> rfl

/-! ## The stack and the heights -/

theorem outer_marks_of_unmatched (h : Unmatched cs p) :
    ∃ l, (marks cs).outer = l ++ (marks (cs.take p)).current :: (marks (cs.take p)).outer ∧
      (l.length : Int) = height cs cs.length - height cs (p + 1) := by
  induction cs using List.reverseRecOn with
  | nil => simp [Unmatched] at h
  | append_singleton cs c ih =>
    have hp : p < (cs ++ [c]).length := lt_length_of_getElem? h.1
    rw [List.length_append, List.length_singleton] at hp ⊢
    by_cases hlast : p = cs.length
    · subst hlast
      obtain rfl := unmatched_concat_self_iff.1 h
      refine ⟨[], ?_, by simp⟩
      rw [List.take_left, marks_concat]
      rfl
    · obtain ⟨hun, hle⟩ := (unmatched_concat_iff (by omega)).1 h
      obtain ⟨l, houter, hl⟩ := ih hun
      have hopen : height (cs ++ [c]) (p + 1) = height cs (p + 1) := height_append (by omega) [c]
      rw [height_concat] at hle ⊢
      rw [List.take_append_of_le_length (by omega), hopen, marks_concat]
      by_cases hpush : c = .push
      · subst hpush
        refine ⟨(marks cs).current :: l, ?_, ?_⟩
        · show (marks cs).current :: (marks cs).outer = _
          rw [houter, List.cons_append]
        · rw [List.length_cons, if_pos rfl, if_neg (by simp)]
          omega
      by_cases hpop : c = .pop
      · subst hpop
        rw [if_neg (by simp), if_pos rfl] at hle ⊢
        cases l with
        | nil =>
          rw [List.length_nil] at hl
          omega
        | cons a l =>
          refine ⟨l, ?_, ?_⟩
          · rw [mark_pop, Scopes.pop?_of_outer_eq_cons houter]
            rfl
          · rw [List.length_cons] at hl
            omega
      · refine ⟨l, ?_, ?_⟩
        · rw [outer_mark _ _ hpush hpop]
          exact houter
        · rw [if_neg hpush, if_neg hpop, hl]
          omega

theorem marks_concat_of_matched (h : Matched (cs ++ [.pop]) p cs.length) :
    marks (cs ++ [.pop]) = marks (cs.take p) := by
  obtain ⟨hun, heq⟩ := matched_concat_self_iff.1 h
  obtain ⟨l, houter, hl⟩ := outer_marks_of_unmatched hun
  obtain rfl : l = [] := List.length_eq_zero_iff.1 (by omega)
  rw [marks_concat, mark_pop, Scopes.pop?_of_outer_eq_cons houter]
  rfl

theorem marks_concat_of_outer_eq_nil (h : (marks cs).outer = []) :
    marks (cs ++ [.pop]) = marks cs := by
  rw [marks_concat, mark_pop, Scopes.pop?_of_outer_eq_nil h, Option.getD_none]

/-- If a scope is open, the one opened last is. -/
theorem exists_last_unmatched :
    ∀ cs, (marks cs).outer ≠ [] → ∃ p, Unmatched cs p ∧ height cs cs.length = height cs (p + 1) := by
  refine prefix_induction (fun h => absurd rfl h) fun cs c ih h => ?_
  rw [List.length_append, List.length_singleton]
  by_cases hpush : c = .push
  · subst hpush
    exact ⟨cs.length, unmatched_concat_self_iff.2 rfl, rfl⟩
  by_cases hpop : c = .pop
  · subst hpop
    have hopen : (marks cs).outer ≠ [] := fun hnil =>
      h (by rw [marks_concat_of_outer_eq_nil hnil, hnil])
    obtain ⟨p, hun, heq⟩ := ih cs (List.prefix_refl cs) hopen
    rw [marks_concat_of_matched (matched_concat_self_iff.2 ⟨hun, heq⟩)] at h
    -- The scope around the one that is closed is the last one then.
    obtain ⟨q, hunq, heqq⟩ := ih _ (List.take_prefix p cs) h
    have hq := unmatched_of_take hun hunq
    have hqp := lt_length_of_getElem? hunq.1
    rw [length_take_of_unmatched hun] at hqp heqq
    rw [height_take (Nat.le_refl p), height_take (n := q + 1) hqp] at heqq
    have hp := lt_length_of_getElem? hun.1
    have hopens := height_succ_of_push hun.1
    have hlast : height (cs ++ [.pop]) (cs.length + 1) = height cs (q + 1) := by
      rw [height_concat, if_neg (by simp), if_pos rfl]
      omega
    refine ⟨q, (unmatched_concat_iff (by omega)).2 ⟨hq, Int.le_of_eq hlast.symm⟩, ?_⟩
    rw [hlast, height_append (by omega)]
  · rw [marks_concat, outer_mark _ _ hpush hpop] at h
    obtain ⟨p, hun, heq⟩ := ih cs (List.prefix_refl cs) h
    have hp := lt_length_of_getElem? hun.1
    have hlast : height (cs ++ [c]) (cs.length + 1) = height cs cs.length := by
      rw [height_concat, if_neg hpush, if_neg hpop]
      omega
    refine ⟨p, (unmatched_concat_iff hp).2 ⟨hun, by omega⟩, ?_⟩
    rw [hlast, height_append (by omega), heq]

theorem outer_marks_ne_nil_iff : (marks cs).outer ≠ [] ↔ ∃ p, Unmatched cs p := by
  constructor
  · intro h
    obtain ⟨p, hun, -⟩ := exists_last_unmatched cs h
    exact ⟨p, hun⟩
  · rintro ⟨p, hun⟩
    obtain ⟨l, houter, -⟩ := outer_marks_of_unmatched hun
    simp [houter]

/-- An attempt to close a scope closes one exactly if there is one to close. -/
theorem exists_matched_iff {j : Nat} (hj : cs[j]? = some .pop) :
    (∃ i, Matched cs i j) ↔ ∃ i, Unmatched (cs.take j) i := by
  constructor
  · rintro ⟨i, hm⟩
    exact ⟨i, ((matched_iff_unmatched_take hj).1 hm).1⟩
  · intro h
    obtain ⟨i, hun, heq⟩ := exists_last_unmatched _ (outer_marks_ne_nil_iff.2 h)
    have hlength := length_take_of_getElem? hj
    have hij := lt_length_of_getElem? hun.1
    rw [hlength] at hij heq
    rw [height_take (Nat.le_refl j), height_take (n := i + 1) hij] at heq
    exact ⟨i, (matched_iff_unmatched_take hj).2 ⟨hun, heq⟩⟩

/-! ## What is held -/

theorem not_enclosed_of_length_le (h : cs.length ≤ k + 1) : ¬ Enclosed cs k := by
  rintro ⟨i, hik, j, hj, hkj, -⟩
  omega

theorem held_concat_of_not_matched (h : ∀ i, ¬ Matched (cs ++ [c]) i cs.length) :
    held (cs ++ [c]) = held cs ++ if c.tells then [cs.length] else [] := by
  rw [held, tellings_concat, List.filter_append, held]
  congr 1
  · exact List.filter_congr fun k _ => by
      simp only [enclosed_concat_iff_of_not_matched h]
  · have hlast : ¬ Enclosed (cs ++ [c]) cs.length := not_enclosed_of_length_le (by simp)
    cases c.tells <;> simp [hlast]

theorem held_concat_of_ne_pop (h : c ≠ .pop) :
    held (cs ++ [c]) = held cs ++ if c.tells then [cs.length] else [] := by
  refine held_concat_of_not_matched fun i hm => h ?_
  simpa using hm.closes

theorem held_concat_of_matched (h : Matched (cs ++ [.pop]) p cs.length) :
    held (cs ++ [.pop]) = held (cs.take p) := by
  obtain ⟨hun, -⟩ := matched_concat_self_iff.1 h
  have hlength := length_take_of_unmatched hun
  have hsplit : tellings cs = tellings (cs.take p) ++ (tellings (cs.drop p)).map (p + ·) := by
    have := tellings_append (cs.take p) (cs.drop p)
    rwa [List.take_append_drop, hlength] at this
  have hafter : ((tellings (cs.drop p)).map (p + ·)).filter
      (fun k => ¬ Enclosed (cs ++ [.pop]) k) = [] := by
    refine List.filter_eq_nil_iff.2 fun k hk => ?_
    obtain ⟨m, hm, rfl⟩ := List.mem_map.1 hk
    obtain ⟨c, hc, ht⟩ := tells_iff_mem_tellings.1 hm
    rw [List.getElem?_drop] at hc
    have hpos : m ≠ 0 := by
      rintro rfl
      rw [Nat.add_zero, hun.1] at hc
      cases hc
      cases ht
    have henc : Enclosed (cs ++ [.pop]) (p + m) :=
      (enclosed_concat_iff_of_matched h (lt_length_of_getElem? hc)).2 (Or.inr (by omega))
    simpa using henc
  rw [held, tellings_concat, hsplit]
  simp only [Call.tells, Bool.false_eq_true, if_false, List.append_nil, List.filter_append, hafter]
  refine List.filter_congr fun k hk => ?_
  have hk : k < p := hlength ▸ lt_length_of_mem_tellings hk
  have hp := lt_length_of_getElem? hun.1
  have hsame : Enclosed (cs ++ [.pop]) k ↔ Enclosed (cs.take p) k := by
    rw [enclosed_concat_iff_of_matched h (by omega), enclosed_take_iff hun hk]
    exact or_iff_left (by omega)
  simp only [hsame]

/-- The stack holds what the brackets say. -/
theorem toList_marks : ∀ cs, (marks cs).toList = held cs := by
  refine prefix_induction rfl fun cs c ih => ?_
  have hcs := ih cs (List.prefix_refl cs)
  by_cases hpop : c = .pop
  · subst hpop
    by_cases hnil : (marks cs).outer = []
    · have hno : ∀ i, ¬ Matched (cs ++ [.pop]) i cs.length := fun i hm =>
        outer_marks_ne_nil_iff.2 ⟨i, (matched_concat_self_iff.1 hm).1⟩ hnil
      rw [held_concat_of_not_matched hno, marks_concat_of_outer_eq_nil hnil, hcs]
      simp [Call.tells]
    · obtain ⟨p, hlast⟩ := exists_last_unmatched cs hnil
      have hm := matched_concat_self_iff.2 hlast
      rw [held_concat_of_matched hm, marks_concat_of_matched hm]
      exact ih _ (List.take_prefix p cs)
  · rw [held_concat_of_ne_pop hpop, marks_concat, toList_mark _ _ hpop, hcs]

/-- A scope that is opened and closed leaves nothing. -/
theorem marks_of_balanced {inner : List Call} (h : Balanced inner) (cs : List Call) :
    marks (cs ++ .push :: inner ++ [.pop]) = marks cs := by
  rw [marks_concat_of_matched (matched_of_balanced h cs), List.take_left]

end Brackets

end IntervalPruning
