import IntervalPruning.Proofs.Ranges

/-!
# IntervalPruning.Proofs.Ranges.Updates

All that ever happens to ranges is a list of updates: a variable is registered, or its interval is
narrowed. `updateAll` makes one update after the other, and is known by what it does to the view:

* `get_updateAll_iff`: a property that an intersection has exactly if both parts have it, the interval
  of a variable has exactly if it had it before and all bounds on the variable have it. To begin or to
  end on one side of a number is such a property. So ends only move inwards (`narrowsTo_updateAll`),
  and neither the order of the updates shows nor how often each is made (`get_updateAll_congr`);
* `vars_updateAll`: the variables are those of the updates, each where it was met first, behind the
  ones from before.

What a constraint does to ranges is such a list, `Formula.updates`.
-/

namespace IntervalPruning

inductive Update where
  | register (v : Var)
  | narrow (v : Var) (i : Interval)
  deriving DecidableEq

def Update.var : Update → Var
  | register v => v
  | narrow v _ => v

namespace Interval

theorem ext_ends {i j : Interval} (hl : i.lower = j.lower) (hu : i.upper = j.upper) : i = j := by
  cases i
  cases j
  cases hl
  cases hu
  rfl

end Interval

namespace Ranges

variable {rs : Ranges} {v : Var}

def update (rs : Ranges) : Update → Ranges
  | .register v => rs.register v
  | .narrow v i => rs.narrow v i

def updateAll (rs : Ranges) (us : List Update) : Ranges := us.foldl update rs

theorem updateAll_append (rs : Ranges) (us ws : List Update) :
    rs.updateAll (us ++ ws) = (rs.updateAll us).updateAll ws := List.foldl_append

/-! ## Intervals -/

section

variable {p : Interval → Prop} (hp : ∀ i j, p (i ∩ j) ↔ p i ∧ p j)

include hp

theorem get_update_iff {u : Update} :
    p ((rs.update u).get v) ↔ p (rs.get v) ∧ ∀ i, u = .narrow v i → p i := by
  cases u with
  | register w =>
    rw [update, get_register]
    exact (and_iff_left nofun).symm
  | narrow w i =>
    rw [update, get_narrow]
    by_cases hv : v = w
    · rw [if_pos hv, hp]
      simp [hv]
    · rw [if_neg hv]
      refine (and_iff_left fun j hj => ?_).symm
      exact absurd (Update.narrow.inj hj).1.symm hv

theorem get_updateAll_iff {us : List Update} :
    p ((rs.updateAll us).get v) ↔ p (rs.get v) ∧ ∀ i, .narrow v i ∈ us → p i := by
  induction us generalizing rs with
  | nil => exact (and_iff_left nofun).symm
  | cons u us ih =>
    rw [updateAll, List.foldl_cons]
    refine ih.trans ?_
    rw [get_update_iff hp, and_assoc, ← forall_and]
    refine and_congr_right fun _ => forall_congr' fun i => ?_
    rw [List.mem_cons, or_imp, eq_comm]

end

theorem lower_updateAll_le_iff {us : List Update} {a : ExtInt} :
    ((rs.updateAll us).get v).lower ≤ a ↔
      (rs.get v).lower ≤ a ∧ ∀ i, .narrow v i ∈ us → i.lower ≤ a :=
  get_updateAll_iff (p := fun i => i.lower ≤ a) fun _ _ => max_le_iff

theorem le_upper_updateAll_iff {us : List Update} {a : ExtInt} :
    a ≤ ((rs.updateAll us).get v).upper ↔
      a ≤ (rs.get v).upper ∧ ∀ i, .narrow v i ∈ us → a ≤ i.upper :=
  get_updateAll_iff (p := fun i => a ≤ i.upper) fun _ _ => le_min_iff

/-- An end is determined by what it is compared with, and that depends on the members only. -/
theorem get_updateAll_congr {us ws : List Update} (h : ∀ u, u ∈ us ↔ u ∈ ws) (v : Var) :
    (rs.updateAll us).get v = (rs.updateAll ws).get v := by
  refine Interval.ext_ends (eq_of_forall_ge_iff fun a => ?_) (eq_of_forall_le_iff fun a => ?_)
  · simp only [lower_updateAll_le_iff, h]
  · simp only [le_upper_updateAll_iff, h]

/-! ## Variables -/

theorem vars_update (rs : Ranges) (u : Update) :
    (rs.update u).vars = if u.var ∈ rs then rs.vars else rs.vars ++ [u.var] := by
  cases u with
  | register v => exact vars_register rs v
  | narrow v i => exact (vars_narrow rs v i).trans (vars_register rs v)

theorem nodup_empty : empty.vars.Nodup := List.nodup_nil

theorem nodup_updateAll (h : rs.vars.Nodup) (us : List Update) : (rs.updateAll us).vars.Nodup := by
  induction us generalizing rs with
  | nil => exact h
  | cons u us ih =>
    refine ih ?_
    cases u with
    | register v => exact nodup_register h v
    | narrow v i => exact nodup_narrow h v i

theorem vars_updateAll (h : rs.vars.Nodup) (us : List Update) :
    (rs.updateAll us).vars = (rs.vars ++ us.map Update.var).eraseDups := by
  induction us using List.reverseRecOn with
  | nil =>
    rw [List.map_nil, List.append_nil]
    exact (eraseDups_of_nodup h).symm
  | append_singleton us u ih =>
    rw [updateAll_append, List.map_append, ← List.append_assoc, List.map_singleton, eraseDups_concat,
      ← ih]
    refine (vars_update _ u).trans ?_
    simp only [mem_iff, ih, List.mem_eraseDups]

theorem mem_updateAll_iff (h : rs.vars.Nodup) {us : List Update} :
    v ∈ rs.updateAll us ↔ v ∈ rs ∨ ∃ u ∈ us, u.var = v := by
  rw [mem_iff, vars_updateAll h, List.mem_eraseDups, List.mem_append, List.mem_map, mem_iff]

theorem vars_prefix_updateAll (rs : Ranges) (us : List Update) :
    rs.vars <+: (rs.updateAll us).vars := by
  induction us generalizing rs with
  | nil => exact List.prefix_refl _
  | cons u us ih =>
    refine List.IsPrefix.trans ?_ (ih (rs.update u))
    rw [vars_update]
    split
    · exact List.prefix_refl _
    · exact List.prefix_append _ _

/-! ## Inwards only -/

/-- From the first ranges to the second, the ends of intervals move inwards only, and a variable
without a value left stays without. -/
structure NarrowsTo (rs rs' : Ranges) : Prop where
  lower_le : ∀ v, (rs.get v).lower ≤ (rs'.get v).lower
  le_upper : ∀ v, (rs'.get v).upper ≤ (rs.get v).upper
  subset : ∀ v, rs'.get v ⊆ rs.get v
  infeasible : rs.infeasible ⊆ rs'.infeasible

theorem mem_infeasible_iff_isEmpty (h : rs.vars.Nodup) :
    v ∈ rs.infeasible ↔ (rs.get v).IsEmpty := by
  rw [infeasible_eq_filter h, List.mem_filter, decide_eq_true_eq]
  refine and_iff_right_of_imp fun hempty => ?_
  by_contra hv
  rw [get_of_not_mem hv] at hempty
  exact hempty

theorem narrowsTo_updateAll (h : rs.vars.Nodup) (us : List Update) :
    rs.NarrowsTo (rs.updateAll us) := by
  have hlower (v : Var) : (rs.get v).lower ≤ ((rs.updateAll us).get v).lower :=
    (lower_updateAll_le_iff.1 (le_refl _)).1
  have hupper (v : Var) : ((rs.updateAll us).get v).upper ≤ (rs.get v).upper :=
    (le_upper_updateAll_iff.1 (le_refl _)).1
  refine ⟨hlower, hupper, fun v => Or.inr ⟨hlower v, hupper v⟩, fun v hv => ?_⟩
  rw [mem_infeasible_iff_isEmpty h] at hv
  rw [mem_infeasible_iff_isEmpty (nodup_updateAll h us)]
  exact (hupper v).trans_lt (lt_of_lt_of_le hv (hlower v))

end Ranges

/-! ## Constraints -/

/-- What a constraint bounds, as an update. -/
def Formula.boundUpdates (f : Formula) : List Update :=
  f.bound?.toList.map fun e => .narrow e.1 e.2

/-- All that a constraint does: its variables are registered, then it narrows. -/
def Formula.updates (f : Formula) : List Update :=
  f.freeVars.map .register ++ f.boundUpdates

theorem Formula.var_boundUpdates {f : Formula} {u : Update} (h : u ∈ f.boundUpdates) :
    u.var ∈ f.freeVars := by
  obtain ⟨⟨v, i⟩, he, rfl⟩ := List.mem_map.1 h
  rw [freeVars_of_bound (Option.mem_toList.1 he)]
  exact List.mem_singleton_self v

/-- The variable that is narrowed was registered already. -/
theorem Formula.eraseDups_var_updates (f : Formula) :
    (f.updates.map Update.var).eraseDups = f.vars.eraseDups := by
  have hregister : (f.freeVars.map Update.register).map Update.var = f.freeVars := by
    rw [List.map_map]
    exact List.map_id _
  have hbound : (f.boundUpdates.map Update.var).removeAll f.freeVars = [] := by
    rw [List.removeAll, List.filter_eq_nil_iff]
    intro v hv
    obtain ⟨u, hu, rfl⟩ := List.mem_map.1 hv
    simpa using var_boundUpdates hu
  rw [updates, List.map_append, hregister, List.eraseDups_append, hbound, List.eraseDups_nil,
    List.append_nil]
  exact eraseDups_of_nodup (nodup_eraseDups f.vars)

namespace Ranges

theorem constrain_eq_updateAll (rs : Ranges) (f : Formula) :
    rs.constrain f = rs.updateAll f.boundUpdates := by
  rw [constrain, Formula.boundUpdates]
  cases f.bound? with
  | none => rfl
  | some e => rfl

theorem registerAll_eq_updateAll (rs : Ranges) (vs : List Var) :
    rs.registerAll vs = rs.updateAll (vs.map .register) := by
  rw [registerAll, updateAll, List.foldl_map]
  rfl

theorem constrain_observe_eq_updateAll (rs : Ranges) (f : Formula) :
    (rs.observe f).constrain f = rs.updateAll f.updates := by
  rw [constrain_eq_updateAll, observe, registerAll_eq_updateAll, Formula.updates, updateAll_append]

end Ranges

end IntervalPruning
