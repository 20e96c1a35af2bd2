import IntervalPruning.Proofs.Ranges.Updates

/-!
# IntervalPruning.Proofs.Ranges.Index

Ranges kept in two parts: a list of the variables in the order in which they were met, and a table of
their intervals. An update changes each part on its own, and nothing in the type keeps the two in
step: to go through the variables and look each of them up, `Index.entries?`, has no result if the
table lacks one.

The same updates of ranges say in one list what the two parts say together, `Index.Represents`
(`Index.Represents.updateAll`). There each variable stands with its interval, and so no look-up fails
(`Index.Represents.entries?`).
-/

namespace IntervalPruning

structure Index where
  order : List Var
  table : Var → Option Interval

namespace Index

def empty : Index := ⟨[], fun _ => none⟩

def get (d : Index) (v : Var) : Interval := (d.table v).getD .top

/-- The table alone. -/
def store (d : Index) (v : Var) (i : Interval) : Index :=
  { d with table := fun w => if w = v then some i else d.table w }

def register (d : Index) (v : Var) : Index :=
  if (d.table v).isSome then d else { d with order := d.order ++ [v] }.store v .top

def narrow (d : Index) (v : Var) (i : Interval) : Index :=
  (d.register v).store v ((d.register v).get v ∩ i)

def update (d : Index) : Update → Index
  | .register v => d.register v
  | .narrow v i => d.narrow v i

def updateAll (d : Index) (us : List Update) : Index := us.foldl update d

/-- The variables in their order, each with what the table has for it. -/
def entries? (d : Index) : Option (List (Var × Interval)) :=
  d.order.mapM fun v => (d.table v).map fun i => (v, i)

end Index

theorem Ranges.isSome_lookup_iff {rs : Ranges} {v : Var} :
    (rs.entries.lookup v).isSome ↔ v ∈ rs := by
  refine ⟨fun h => ?_, lookup_isSome_of_mem⟩
  by_contra hv
  rw [lookup_eq_none_of_not_mem hv] at h
  cases h

theorem Ranges.lookup_register (rs : Ranges) (v w : Var) :
    (rs.register v).entries.lookup w =
      if v ∈ rs then rs.entries.lookup w else if w = v then some .top else rs.entries.lookup w := by
  unfold register
  by_cases hv : v ∈ rs
  · rw [if_pos hv, if_pos hv]
  · rw [if_neg hv, if_neg hv, List.lookup_append]
    by_cases hw : w = v
    · rw [hw, lookup_eq_none_of_not_mem hv]
      simp
    · simp [hw, List.lookup_cons, beq_false_of_ne hw]

namespace Index

/-- The two parts say what the ranges say. -/
structure Represents (d : Index) (rs : Ranges) : Prop where
  order : d.order = rs.vars
  table : ∀ v, d.table v = rs.entries.lookup v

namespace Represents

variable {d : Index} {rs : Ranges}

theorem get (h : d.Represents rs) (v : Var) : d.get v = rs.get v :=
  congrArg (·.getD .top) (h.table v)

theorem isSome_table_iff (h : d.Represents rs) (v : Var) : (d.table v).isSome ↔ v ∈ d.order := by
  rw [h.table, Ranges.isSome_lookup_iff, h.order, Ranges.mem_iff]

theorem register (h : d.Represents rs) (v : Var) : (d.register v).Represents (rs.register v) := by
  unfold Index.register
  by_cases hv : v ∈ rs
  · have hstored : (d.table v).isSome := by rw [h.table, Ranges.isSome_lookup_iff]; exact hv
    rw [if_pos hstored, Ranges.register, if_pos hv]
    exact h
  · have hstored : ¬ (d.table v).isSome := by rw [h.table, Ranges.isSome_lookup_iff]; exact hv
    rw [if_neg hstored]
    constructor
    · rw [Ranges.vars_register, if_neg hv, ← h.order]
      rfl
    · intro w
      rw [Ranges.lookup_register, if_neg hv, ← h.table]
      rfl

theorem narrow (h : d.Represents rs) (v : Var) (i : Interval) :
    (d.narrow v i).Represents (rs.narrow v i) := by
  have hregister := h.register v
  constructor
  · rw [Ranges.vars_narrow, ← hregister.order]
    rfl
  · intro w
    rw [Ranges.narrow, Ranges.lookup_update, ← hregister.table]
    by_cases hw : w = v
    · -- the variable has just been registered, so there is an interval to intersect
      obtain ⟨j, hj⟩ := Option.isSome_iff_exists.1
        (Ranges.isSome_lookup_iff.2 (Ranges.mem_register_self rs v))
      rw [← hregister.table] at hj
      rw [hw, hj, Index.narrow, store, Index.get, hj]
      simp
    · rw [Index.narrow, store]
      simp [hw]

theorem updateAll (h : d.Represents rs) (us : List Update) :
    (d.updateAll us).Represents (rs.updateAll us) := by
  induction us generalizing d rs with
  | nil => exact h
  | cons u us ih =>
    refine ih ?_
    cases u with
    | register v => exact h.register v
    | narrow v i => exact h.narrow v i

theorem entries? (h : d.Represents rs) (hnodup : rs.vars.Nodup) : d.entries? = some rs.entries := by
  have hlookup : ∀ e ∈ rs.entries, ((d.table e.1).map fun i => (e.1, i)) = some e := by
    intro e he
    rw [h.table, lookup_of_mem hnodup he]
    rfl
  rw [Index.entries?, h.order, Ranges.vars]
  generalize rs.entries = es at hlookup
  induction es with
  | nil => rfl
  | cons e es ih =>
    obtain ⟨he, hes⟩ := List.forall_mem_cons.1 hlookup
    rw [List.map_cons, List.mapM_cons, he, ih hes]
    rfl

end Represents

theorem represents_empty : empty.Represents .empty := ⟨rfl, fun _ => rfl⟩

end Index

end IntervalPruning
