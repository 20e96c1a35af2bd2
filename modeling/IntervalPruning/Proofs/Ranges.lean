import IntervalPruning.Proofs.ExtInt
import IntervalPruning.Proofs.Keys
import IntervalPruning.Ranges.Basic
import Mathlib.Order.Lattice

/-!
# IntervalPruning.Proofs.Ranges

What ranges know, as a set of assignments: `rs.Admits env` says that each variable has a value in
its effective interval. A constraint that holds takes no assignment away (`admits_constrain`), and
where no interval changes, neither does the set (`admits_congr`).

`Interval.IsProper` leaves out the intervals that begin at `+∞` or end at `-∞`. They hold no
integer although their ends have not crossed, and no constraint ever leads to one
(`proper_constrain`). A proper interval is empty exactly if it holds no integer
(`Interval.isEmpty_iff_forall_not_mem`).

No operation enters a variable twice (`nodup_constrain`), so the infeasible variables are those
whose interval is empty, in the order of the ranges (`infeasible_eq_filter`).
-/

namespace IntervalPruning

namespace Interval

variable {i j : Interval} {n : Int}

theorem mem_inter : n ∈ i ∩ j ↔ n ∈ i ∧ n ∈ j := by
  rw [mem_iff, mem_iff, mem_iff, lower_inter, upper_inter, max_le_iff, le_min_iff]
  exact and_and_and_comm

theorem not_mem_of_isEmpty (h : i.IsEmpty) (n : Int) : n ∉ i := by
  intro hn
  exact absurd (hn.1.trans hn.2) (not_le_of_gt h)

/-- What is empty stays empty. -/
theorem isEmpty_inter (h : i.IsEmpty) (j : Interval) : (i ∩ j).IsEmpty := by
  show min i.upper j.upper < max i.lower j.lower
  exact lt_of_le_of_lt (min_le_left _ _) (lt_of_lt_of_le h (le_max_left _ _))

def IsProper (i : Interval) : Prop := i.lower ≠ .posInf ∧ i.upper ≠ .negInf

theorem isProper_top : top.IsProper := ⟨nofun, nofun⟩

theorem exists_mem_of_not_isEmpty (hi : i.IsProper) (h : ¬ i.IsEmpty) : ∃ n, n ∈ i := by
  obtain ⟨lower, upper⟩ := i
  have hle : lower ≤ upper := not_lt.1 h
  cases lower with
  | posInf => exact absurd rfl hi.1
  | fin l => exact ⟨l, le_refl _, hle⟩
  | negInf =>
    cases upper with
    | negInf => exact absurd rfl hi.2
    | fin u => exact ⟨u, trivial, le_refl _⟩
    | posInf => exact ⟨0, trivial, trivial⟩

theorem isEmpty_iff_forall_not_mem (hi : i.IsProper) : i.IsEmpty ↔ ∀ n, n ∉ i := by
  refine ⟨not_mem_of_isEmpty, fun h => ?_⟩
  by_contra hne
  obtain ⟨n, hn⟩ := exists_mem_of_not_isEmpty hi hne
  exact h n hn

theorem isProper_inter (hi : i.IsProper) (hj : j.IsProper) : (i ∩ j).IsProper := by
  constructor
  · rw [lower_inter]
    rcases max_choice i.lower j.lower with h | h
    · rw [h]; exact hi.1
    · rw [h]; exact hj.1
  · rw [upper_inter]
    rcases min_choice i.upper j.upper with h | h
    · rw [h]; exact hi.2
    · rw [h]; exact hj.2

end Interval

theorem Rel.isProper_interval (r : Rel) (k : Int) : (r.interval k).IsProper := by
  cases r <;> exact ⟨nofun, nofun⟩

theorem Formula.freeVars_of_bound {f : Formula} {v : Var} {i : Interval}
    (h : f.bound? = some (v, i)) : f.freeVars = [v] := by
  unfold bound? at h
  split at h
  · rename_i hvars
    obtain ⟨j, -, h⟩ := Option.map_eq_some_iff.1 h
    cases h
    exact hvars
  · cases h

theorem Formula.isProper_bound {f : Formula} {v : Var} {i : Interval}
    (h : f.bound? = some (v, i)) : i.IsProper := by
  unfold bound? at h
  split at h
  · obtain ⟨j, hj, h⟩ := Option.map_eq_some_iff.1 h
    cases h
    simp only [solve?, bind, Option.bind_eq_some_iff] at hj
    obtain ⟨d, -, e, -, hj⟩ := hj
    unfold Affine.solve? at hj
    split at hj
    · cases hj; exact Rel.isProper_interval _ _
    · split at hj
      · cases hj; exact Rel.isProper_interval _ _
      · cases hj
  · cases h

namespace Ranges

variable {rs rs' : Ranges} {env : Var → Int}

theorem get_narrow (rs : Ranges) (v w : Var) (i : Interval) :
    (rs.narrow v i).get w = if w = v then rs.get w ∩ i else rs.get w := by
  by_cases h : w = v
  · rw [if_pos h, h, get_narrow_self]
  · rw [if_neg h, get_narrow_of_ne rs i h]

/-- What holds of the entries and of the interval of a variable never met. -/
theorem forall_get {p : Interval → Prop} (htop : p .top) (h : ∀ e ∈ rs.entries, p e.2) (v : Var) :
    p (rs.get v) := by
  unfold get
  cases hl : rs.entries.lookup v with
  | none => exact htop
  | some i =>
    obtain ⟨before, after, hes, -⟩ := List.lookup_eq_some_iff.1 hl
    exact h (v, i) (hes ▸ List.mem_append_right before List.mem_cons_self)

/-- Each variable has a value that the ranges allow. -/
def Admits (rs : Ranges) (env : Var → Int) : Prop := ∀ v, env v ∈ rs.effective v

theorem mem_effective {v : Var} {n : Int} :
    n ∈ rs.effective v ↔ (¬ (rs.get v).IsEmpty → n ∈ rs.get v) := by
  unfold effective
  split
  · rename_i h
    exact iff_of_true (Interval.mem_top n) (fun hn => absurd h hn)
  · rename_i h
    exact ⟨fun hn _ => hn, fun hn => hn h⟩

theorem effective_of_mem {v : Var} {n : Int} (h : n ∈ rs.get v) : rs.effective v = rs.get v :=
  if_neg fun he => Interval.not_mem_of_isEmpty he n h

theorem admits_empty (env : Var → Int) : empty.Admits env := by
  intro v
  exact mem_effective.2 fun _ => Interval.mem_top _

theorem effective_congr (h : ∀ v, rs'.get v = rs.get v) (v : Var) :
    rs'.effective v = rs.effective v := by
  rw [effective, effective, h]

theorem admits_congr (h : ∀ v, rs'.get v = rs.get v) : rs'.Admits env ↔ rs.Admits env := by
  unfold Admits
  simp only [effective_congr h]

theorem admits_constrain {f : Formula} (h : rs.Admits env)
    (hf : f.bound?.isSome → f.eval env = true) : (rs.constrain f).Admits env := by
  intro w
  have hw := mem_effective.1 (h w)
  unfold constrain
  split
  · rename_i v i hb
    have hi : env v ∈ i := (Formula.mem_bound hb env).2 (hf (by rw [hb]; rfl))
    rw [mem_effective, get_narrow]
    by_cases hv : w = v
    · rw [if_pos hv]
      intro hne
      have hold : ¬ (rs.get w).IsEmpty := fun he => hne (Interval.isEmpty_inter he i)
      exact Interval.mem_inter.2 ⟨hw hold, hv ▸ hi⟩
    · rw [if_neg hv]
      exact hw
  · exact h w

def Proper (rs : Ranges) : Prop := ∀ v, (rs.get v).IsProper

theorem proper_empty : empty.Proper := fun _ => Interval.isProper_top

theorem proper_congr (h : ∀ v, rs'.get v = rs.get v) : rs'.Proper ↔ rs.Proper := by
  unfold Proper
  simp only [h]

theorem proper_constrain (h : rs.Proper) (f : Formula) : (rs.constrain f).Proper := by
  intro w
  unfold constrain
  split
  · rename_i v i hb
    rw [get_narrow]
    by_cases hv : w = v
    · rw [if_pos hv]
      exact Interval.isProper_inter (h w) (Formula.isProper_bound hb)
    · rw [if_neg hv]
      exact h w
  · exact h w

/-! ## Each variable once -/

theorem nodup_register (h : rs.vars.Nodup) (v : Var) : (rs.register v).vars.Nodup := by
  rw [vars_register]
  by_cases hv : v ∈ rs
  · rw [if_pos hv]
    exact h
  · rw [if_neg hv]
    refine List.nodup_append.2 ⟨h, by simp, ?_⟩
    rintro u hu w hw rfl
    exact hv (List.mem_singleton.1 hw ▸ hu)

theorem nodup_registerAll (h : rs.vars.Nodup) (vs : List Var) : (rs.registerAll vs).vars.Nodup := by
  induction vs generalizing rs with
  | nil => exact h
  | cons v vs ih => exact ih (nodup_register h v)

theorem nodup_narrow (h : rs.vars.Nodup) (v : Var) (i : Interval) :
    (rs.narrow v i).vars.Nodup := by
  rw [vars_narrow]
  exact nodup_register h v

theorem nodup_constrain (h : rs.vars.Nodup) (f : Formula) : (rs.constrain f).vars.Nodup := by
  unfold constrain
  split
  · exact nodup_narrow h _ _
  · exact h

theorem get_of_mem_entries (h : rs.vars.Nodup) {v : Var} {i : Interval}
    (he : (v, i) ∈ rs.entries) : rs.get v = i := by
  rw [get, lookup_of_mem h he, Option.getD_some]

theorem infeasible_eq_filter (h : rs.vars.Nodup) :
    rs.infeasible = rs.vars.filter fun v => (rs.get v).IsEmpty := by
  rw [infeasible, vars, List.filter_map]
  refine congrArg (List.map Prod.fst) (List.filter_congr fun e he => ?_)
  rw [Function.comp_apply, get_of_mem_entries h he]

end Ranges

end IntervalPruning
