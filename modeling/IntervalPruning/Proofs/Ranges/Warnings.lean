import IntervalPruning.Proofs.Ranges.Updates
import IntervalPruning.Ranges.Log

/-!
# IntervalPruning.Proofs.Ranges.Warnings

The log of a list of updates, and the warnings in it. A narrowing warns exactly if it takes the last
value away, so with each update the number of warnings about a variable grows by what
`Ranges.lost` grows (`count_warned_updateEvents`). What is lost stays lost, hence no variable is
ever warned about twice (`count_warned_updateLog`).
-/

namespace IntervalPruning

/-- The variable that a warning is about. -/
def Event.warned? : Event → Option Var
  | infeasible v _ => some v
  | _ => none

theorem Event.isSome_warned? (e : Event) : e.warned?.isSome = decide (e.level = .warn) := by
  cases e <;> rfl

/-- The variables that a log warns about, each as often as it does. -/
def warned (log : List Event) : List Var := log.filterMap Event.warned?

@[simp] theorem warned_append (log log' : List Event) :
    warned (log ++ log') = warned log ++ warned log' := List.filterMap_append

theorem length_warned (log : List Event) :
    (warned log).length = log.countP (·.level = .warn) := by
  rw [warned, List.length_filterMap_eq_countP]
  refine List.countP_congr fun e _ => ?_
  rw [Event.isSome_warned?]

namespace Ranges

variable {rs : Ranges}

def updateEvents (rs : Ranges) : Update → List Event
  | .register v => rs.registerEvents v
  | .narrow v i => rs.narrowEvents v i

/-- The events of one update after the other. -/
def updateLog (rs : Ranges) : List Update → List Event
  | [] => []
  | u :: us => rs.updateEvents u ++ (rs.update u).updateLog us

theorem updateLog_append (rs : Ranges) (us ws : List Update) :
    rs.updateLog (us ++ ws) = rs.updateLog us ++ (rs.updateAll us).updateLog ws := by
  induction us generalizing rs with
  | nil => rfl
  | cons u us ih =>
    rw [List.cons_append, updateLog, updateLog, ih, List.append_assoc]
    rfl

theorem registerAllEvents_eq_updateLog (rs : Ranges) (vs : List Var) :
    rs.registerAllEvents vs = rs.updateLog (vs.map .register) := by
  induction vs generalizing rs with
  | nil => rfl
  | cons v vs ih =>
    rw [registerAllEvents, List.map_cons, updateLog, ih]
    rfl

theorem warned_registerEvents (rs : Ranges) (v : Var) : warned (rs.registerEvents v) = [] := by
  unfold registerEvents
  split
  · rfl
  · rfl

theorem warned_registerAllEvents (rs : Ranges) (vs : List Var) :
    warned (rs.registerAllEvents vs) = [] := by
  induction vs generalizing rs with
  | nil => rfl
  | cons v vs ih => rw [registerAllEvents, warned_append, warned_registerEvents, ih, List.nil_append]

theorem warned_narrowEvents (rs : Ranges) (v : Var) (i : Interval) :
    warned (rs.narrowEvents v i) =
      if (rs.get v ∩ i).IsEmpty ∧ ¬ (rs.get v).IsEmpty then [v] else [] := by
  rw [narrowEvents, warned_append, warned_append, warned_registerEvents]
  split
  · rfl
  · rfl

/-- How often a variable has lost its last value: once, if it has none. -/
def lost (rs : Ranges) (v : Var) : Nat := if (rs.get v).IsEmpty then 1 else 0

theorem count_warned_updateEvents (rs : Ranges) (u : Update) (v : Var) :
    (warned (rs.updateEvents u)).count v + rs.lost v = (rs.update u).lost v := by
  cases u with
  | register w =>
    rw [updateEvents, warned_registerEvents, update, lost, lost, get_register]
    exact Nat.zero_add _
  | narrow w i =>
    rw [updateEvents, warned_narrowEvents, update, lost, lost, get_narrow]
    by_cases hv : v = w
    · subst hv
      rw [if_pos rfl]
      by_cases hold : (rs.get v).IsEmpty
      · have hnew := Interval.isEmpty_inter hold i
        simp [hold, hnew]
      · by_cases hnew : (rs.get v ∩ i).IsEmpty
        · simp [hold, hnew]
        · simp [hold, hnew]
    · rw [if_neg hv]
      have hcount : (if (rs.get w ∩ i).IsEmpty ∧ ¬ (rs.get w).IsEmpty then [w] else []).count v = 0 := by
        split
        · exact List.count_singleton.trans (if_neg (by simpa using Ne.symm hv))
        · rfl
      rw [hcount, Nat.zero_add]

theorem count_warned_updateLog (rs : Ranges) (us : List Update) (v : Var) :
    (warned (rs.updateLog us)).count v + rs.lost v = (rs.updateAll us).lost v := by
  induction us generalizing rs with
  | nil => exact Nat.zero_add _
  | cons u us ih =>
    have hstep := count_warned_updateEvents rs u v
    have hrest : _ = ((rs.update u).updateAll us).lost v := ih (rs.update u)
    rw [updateLog, warned_append, List.count_append]
    show _ = ((rs.update u).updateAll us).lost v
    omega

/-- The log warns once of each variable without a value left, and of nothing else. -/
structure WarnedOnce (rs : Ranges) (log : List Event) : Prop where
  count : ∀ v, (warned log).count v = if (rs.get v).IsEmpty then 1 else 0
  total : log.countP (·.level = .warn) = rs.infeasible.length

theorem WarnedOnce.congr {log log' : List Event} (h : rs.WarnedOnce log)
    (heq : warned log = warned log') : rs.WarnedOnce log' where
  count v := heq ▸ h.count v
  total := by rw [← length_warned, ← heq, length_warned, h.total]

theorem warnedOnce_of_count (h : rs.vars.Nodup) {log : List Event}
    (hcount : ∀ v, (warned log).count v = rs.lost v) : rs.WarnedOnce log where
  count := hcount
  total := by
    have hnodup : rs.infeasible.Nodup := by
      rw [infeasible_eq_filter h]
      exact h.filter _
    have hperm : (warned log).Perm rs.infeasible := by
      rw [List.perm_iff_count]
      intro v
      rw [hcount, lost, hnodup.count]
      simp only [mem_infeasible_iff_isEmpty h]
    rw [← length_warned, hperm.length_eq]

theorem warnedOnce_updateAll (us : List Update) :
    (empty.updateAll us).WarnedOnce (empty.updateLog us) :=
  warnedOnce_of_count (nodup_updateAll nodup_empty us) (count_warned_updateLog empty us)

end Ranges

end IntervalPruning
