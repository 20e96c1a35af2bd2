import IntervalPruning.Formula.Bound

/-!
# IntervalPruning.Ranges.Basic

What is known about each variable: a list of variables, each with the interval that its values
were narrowed to, in the order in which the variables were first met. A variable that was never
met may have any value.

The view is `get`; an operation is known by what it does to `get` and to `vars`:

* `register` adds a variable and changes no interval;
* `narrow` intersects the interval of one variable with another interval;
* `observe` registers the variables of a formula;
* `constrain` narrows by the bound that a formula states, if it states one.

Intervals only ever shrink, and an empty one stays as it is. Where intervals are used to
calculate, `effective` takes an empty one for no knowledge at all, so that a contradiction
proves nothing.
-/

namespace IntervalPruning

structure Ranges where
  entries : List (Var × Interval)
  deriving DecidableEq, Repr

namespace Ranges

def empty : Ranges := ⟨[]⟩

def vars (rs : Ranges) : List Var := rs.entries.map Prod.fst

def size (rs : Ranges) : Nat := rs.entries.length

instance : Membership Var Ranges := ⟨fun rs v => v ∈ rs.vars⟩

theorem mem_iff {rs : Ranges} {v : Var} : v ∈ rs ↔ v ∈ rs.vars := Iff.rfl

instance (v : Var) (rs : Ranges) : Decidable (v ∈ rs) :=
  inferInstanceAs (Decidable (v ∈ rs.vars))

def get (rs : Ranges) (v : Var) : Interval := (rs.entries.lookup v).getD .top

def effective (rs : Ranges) (v : Var) : Interval :=
  if (rs.get v).IsEmpty then .top else rs.get v

/-- The variables left without a value. -/
def infeasible (rs : Ranges) : List Var :=
  (rs.entries.filter fun e => e.2.IsEmpty).map Prod.fst

def register (rs : Ranges) (v : Var) : Ranges :=
  if v ∈ rs then rs else ⟨rs.entries ++ [(v, .top)]⟩

def registerAll (rs : Ranges) (vs : List Var) : Ranges := vs.foldl register rs

def observe (rs : Ranges) (f : Formula) : Ranges := rs.registerAll f.freeVars

def narrow (rs : Ranges) (v : Var) (i : Interval) : Ranges :=
  ⟨(rs.register v).entries.map fun e => if e.1 = v then (v, e.2 ∩ i) else e⟩

def narrowAll (rs : Ranges) (bounds : List (Var × Interval)) : Ranges :=
  bounds.foldl (fun rs e => rs.narrow e.1 e.2) rs

def constrain (rs : Ranges) (f : Formula) : Ranges :=
  match f.bound? with
  | some (v, i) => rs.narrow v i
  | none => rs

/-- The interval of the variable that `f` bounds. -/
def boundedBy? (rs : Ranges) (f : Formula) : Option Interval :=
  f.bound?.map fun e => rs.get e.1

theorem lookup_eq_none_of_not_mem {rs : Ranges} {v : Var} (h : v ∉ rs) :
    rs.entries.lookup v = none := by
  rw [List.lookup_eq_none_iff]
  intro e he
  simp only [bne_iff_ne, ne_eq]
  exact fun hv => h (List.mem_map.2 ⟨e, he, hv.symm⟩)

theorem get_of_not_mem {rs : Ranges} {v : Var} (h : v ∉ rs) : rs.get v = .top := by
  rw [get, lookup_eq_none_of_not_mem h, Option.getD_none]

theorem mem_register_self (rs : Ranges) (v : Var) : v ∈ rs.register v := by
  unfold register
  split
  · assumption
  · simp [mem_iff, vars]

theorem vars_register (rs : Ranges) (v : Var) :
    (rs.register v).vars = if v ∈ rs then rs.vars else rs.vars ++ [v] := by
  unfold register
  split <;> simp [vars]

@[simp] theorem get_register (rs : Ranges) (v w : Var) : (rs.register v).get w = rs.get w := by
  unfold register
  split
  · rfl
  · rename_i h
    by_cases hw : w = v
    · simp [get, List.lookup_append, lookup_eq_none_of_not_mem h, hw]
    · simp [get, List.lookup_append, List.lookup_cons, beq_false_of_ne hw]

@[simp] theorem get_registerAll (rs : Ranges) (vs : List Var) (w : Var) :
    (rs.registerAll vs).get w = rs.get w := by
  induction vs generalizing rs with
  | nil => rfl
  | cons v vs ih => exact (ih (rs.register v)).trans (get_register rs v w)

@[simp] theorem get_observe (rs : Ranges) (f : Formula) (w : Var) :
    (rs.observe f).get w = rs.get w := get_registerAll rs _ w

theorem vars_narrow (rs : Ranges) (v : Var) (i : Interval) :
    (rs.narrow v i).vars = (rs.register v).vars := by
  simp only [narrow, vars, List.map_map]
  apply List.map_congr_left
  intro e _
  by_cases h : e.1 = v
  · simp [h]
  · simp [h]

theorem lookup_update (es : List (Var × Interval)) (v w : Var) (i : Interval) :
    (es.map fun e => if e.1 = v then (v, e.2 ∩ i) else e).lookup w =
      (es.lookup w).map fun j => if w = v then j ∩ i else j := by
  induction es with
  | nil => rfl
  | cons e es ih =>
    obtain ⟨u, j⟩ := e
    by_cases hu : u = v
    · by_cases hw : w = v
      · simp [hu, hw]
      · simpa [List.lookup_cons, hu, hw, beq_false_of_ne hw] using ih
    · by_cases hwu : w = u
      · simp [hu, hwu]
      · simpa [List.lookup_cons, hu, hwu, beq_false_of_ne hwu] using ih

theorem lookup_isSome_of_mem {rs : Ranges} {v : Var} (h : v ∈ rs) :
    (rs.entries.lookup v).isSome := by
  rw [Option.isSome_iff_ne_none]
  intro hn
  rw [List.lookup_eq_none_iff] at hn
  obtain ⟨e, he, rfl⟩ := List.mem_map.1 h
  simpa using hn e he

theorem get_narrow_self (rs : Ranges) (v : Var) (i : Interval) :
    (rs.narrow v i).get v = rs.get v ∩ i := by
  obtain ⟨j, hj⟩ := Option.isSome_iff_exists.1 (lookup_isSome_of_mem (mem_register_self rs v))
  have hg : rs.get v = j := by
    rw [← get_register rs v v, get, hj, Option.getD_some]
  rw [get, narrow, lookup_update, hj, hg]
  simp

theorem get_narrow_of_ne (rs : Ranges) {v w : Var} (i : Interval) (h : w ≠ v) :
    (rs.narrow v i).get w = rs.get w := by
  rw [← get_register rs v w, get, narrow, lookup_update]
  simp [h, get]

end Ranges

end IntervalPruning
