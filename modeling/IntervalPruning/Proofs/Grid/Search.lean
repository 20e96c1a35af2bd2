import IntervalPruning.Grid.Search
import IntervalPruning.Proofs.Formula.Models
import IntervalPruning.Proofs.Keys
import Mathlib.Logic.Function.Basic

/-!
# IntervalPruning.Proofs.Grid.Search

The grid search is exact within its radius. `search_isSome_iff` says when the search finds values
for the variables that are still open: each formula is checked at its last open variable, where
the values given later no longer matter (`completes_cons_iff_checks`). `solve_isSome_iff` follows for
all formulas together.

The search goes through the variables in the order in which the formulas name them, but whether it
finds a solution depends on the solutions alone (`solve_isSome_congr`).
-/

namespace IntervalPruning

namespace Grid

theorem firstFrom_isSome_iff {α : Type} {attempt : Int → Option α} {start : Int} {count : Nat} :
    (firstFrom attempt start count).isSome ↔
      ∃ n, (start ≤ n ∧ n < start + count) ∧ (attempt n).isSome := by
  induction count generalizing start with
  | zero =>
    refine iff_of_false Bool.false_ne_true ?_
    rintro ⟨n, hn, -⟩
    omega
  | succ count ih =>
    rw [firstFrom]
    cases h : attempt start with
    | some a =>
      refine iff_of_true rfl ⟨start, ?_, ?_⟩
      · omega
      · rw [h]; rfl
    | none =>
      rw [ih]
      refine exists_congr fun n => and_congr_left fun hn => ?_
      have hne : n ≠ start := by
        rintro rfl
        rw [h] at hn
        exact Bool.false_ne_true hn
      omega

theorem isSome_ite_none {α : Type} {c : Prop} [Decidable c] {x : Option α} :
    (if c then x else none).isSome ↔ c ∧ x.isSome := by
  by_cases h : c
  · rw [if_pos h]
    exact (and_iff_right h).symm
  · rw [if_neg h]
    exact iff_of_false Bool.false_ne_true fun hx => h hx.1

theorem Assignment.lookup_concat_of_ne {a : Assignment} {v w : Var} (hw : w ≠ v) (n : Int) :
    (a ++ [(v, n)]).lookup w = a.lookup w := by
  rw [List.lookup_append, List.lookup_cons, beq_false_of_ne hw]
  exact Option.or_none

theorem Assignment.lookup_concat_self {a : Assignment} {v : Var} (h : a.lookup v = none) (n : Int) :
    (a ++ [(v, n)]).lookup v = some n := by
  rw [List.lookup_append, h, List.lookup_cons_self]
  rfl

theorem Assignment.env_concat {a : Assignment} {v : Var} (h : a.lookup v = none) (n : Int) :
    Assignment.env (a ++ [(v, n)]) = Function.update a.env v n := by
  funext w
  rw [env, Function.update_apply]
  by_cases hw : w = v
  · rw [if_pos hw, hw, lookup_concat_self h]
    rfl
  · rw [if_neg hw, lookup_concat_of_ne hw]
    rfl

/-- A choice of values for the open variables `vs`, where all others keep theirs. -/
structure Completes (radius : Int) (fs : List Formula) (vs : List Var) (old env : Var → Int) :
    Prop where
  outside : ∀ w, w ∉ vs → env w = old w
  within : ∀ w ∈ vs, -radius ≤ env w ∧ env w ≤ radius
  holds : ∀ f ∈ fs, (∃ w ∈ vs, w ∈ f.vars) → f.eval env = true

section Completes

variable {radius : Int} {fs : List Formula} {v : Var} {vs : List Var} {old env : Var → Int}

/-- The formulas of which `v` is the last variable, and those that speak about later ones. -/
theorem completes_cons (hv : v ∉ vs) :
    Completes radius fs (v :: vs) old env ↔
      (-radius ≤ env v ∧ env v ≤ radius) ∧
        (∀ f ∈ fs, v ∈ f.vars → (∀ w ∈ vs, w ∉ f.vars) → f.eval env = true) ∧
        Completes radius fs vs (Function.update old v (env v)) env := by
  constructor
  · intro h
    refine ⟨h.within v List.mem_cons_self, ?_, ?_, ?_, ?_⟩
    · exact fun f hf hvf _ => h.holds f hf ⟨v, List.mem_cons_self, hvf⟩
    · intro w hw
      rw [Function.update_apply]
      by_cases hwv : w = v
      · rw [if_pos hwv, hwv]
      · rw [if_neg hwv]
        exact h.outside w fun hmem => (List.mem_cons.1 hmem).elim hwv hw
    · exact fun w hw => h.within w (List.mem_cons_of_mem v hw)
    · rintro f hf ⟨w, hw, hwf⟩
      exact h.holds f hf ⟨w, List.mem_cons_of_mem v hw, hwf⟩
  · rintro ⟨hrange, hlast, h⟩
    refine ⟨?_, ?_, ?_⟩
    · intro w hw
      rw [List.mem_cons, not_or] at hw
      rw [h.outside w hw.2, Function.update_of_ne hw.1]
    · intro w hw
      rcases List.mem_cons.1 hw with rfl | hw
      · exact hrange
      · exact h.within w hw
    · rintro f hf ⟨w, hw, hwf⟩
      by_cases hlater : ∃ u ∈ vs, u ∈ f.vars
      · exact h.holds f hf hlater
      · have hnone : ∀ u ∈ vs, u ∉ f.vars := fun u hu huf => hlater ⟨u, hu, huf⟩
        rcases List.mem_cons.1 hw with rfl | hw
        · exact hlast f hf hwf hnone
        · exact absurd hwf (hnone w hw)

theorem Completes.eval_eq (h : Completes radius fs vs old env) {f : Formula}
    (hf : ∀ w ∈ vs, w ∉ f.vars) : f.eval old = f.eval env :=
  Formula.eval_congr fun w hw => (h.outside w fun hmem => hf w hmem hw).symm

/-- The values under which all formulas can be checked that have `v` as their last open variable are
known once `v` has the value `n`; the open variables behind it do not matter for them. -/
theorem completes_cons_iff_checks (hv : v ∉ vs) {n : Int} :
    Completes radius fs (v :: vs) old env ∧ env v = n ↔
      (-radius ≤ n ∧ n ≤ radius) ∧
        (∀ f ∈ fs, v ∈ f.vars → (∀ w ∈ vs, w ∉ f.vars) →
          f.eval (Function.update old v n) = true) ∧
        Completes radius fs vs (Function.update old v n) env := by
  constructor
  · rintro ⟨h, rfl⟩
    obtain ⟨hrange, hlast, h⟩ := (completes_cons hv).1 h
    refine ⟨hrange, ?_, h⟩
    intro f hf hvf hlater
    rw [h.eval_eq hlater]
    exact hlast f hf hvf hlater
  · rintro ⟨hrange, hchecks, h⟩
    have hnv : env v = n := by rw [h.outside v hv, Function.update_self]
    subst hnv
    refine ⟨(completes_cons hv).2 ⟨hrange, ?_, h⟩, rfl⟩
    intro f hf hvf hlater
    rw [← h.eval_eq hlater]
    exact hchecks f hf hvf hlater

end Completes

theorem mem_checks {fs : List Formula} {v : Var} {vs : List Var} {f : Formula} :
    f ∈ fs.filter (fun f => decide (v ∈ f.freeVars) && vs.all fun w => decide (w ∉ f.freeVars)) ↔
      f ∈ fs ∧ v ∈ f.vars ∧ ∀ w ∈ vs, w ∉ f.vars := by
  simp only [List.mem_filter, Bool.and_eq_true, decide_eq_true_eq, List.all_eq_true,
    Formula.mem_freeVars]

theorem all_checks {fs : List Formula} {v : Var} {vs : List Var} {env : Var → Int} :
    ((fs.filter fun f => decide (v ∈ f.freeVars) && vs.all fun w => decide (w ∉ f.freeVars)).all
        fun f => f.eval env) = true ↔
      ∀ f ∈ fs, v ∈ f.vars → (∀ w ∈ vs, w ∉ f.vars) → f.eval env = true := by
  simp only [List.all_eq_true, mem_checks, and_imp]

theorem lookup_concat_eq_none {a : Assignment} {v : Var} {vs : List Var}
    (ha : ∀ w ∈ v :: vs, a.lookup w = none) (hv : v ∉ vs) (n : Int) :
    ∀ w ∈ vs, (a ++ [(v, n)]).lookup w = none := by
  intro w hw
  have hne : w ≠ v := fun h => hv (h ▸ hw)
  rw [Assignment.lookup_concat_of_ne hne, ha w (List.mem_cons_of_mem v hw)]

theorem search_isSome_iff {radius : Int} {fs : List Formula} {vs : List Var} (hvs : vs.Nodup)
    {a : Assignment} (ha : ∀ v ∈ vs, a.lookup v = none) :
    (search radius (levels fs vs) a).isSome ↔ ∃ env, Completes radius fs vs a.env env := by
  induction vs generalizing a with
  | nil =>
    refine iff_of_true rfl ⟨a.env, fun _ _ => rfl, ?_, ?_⟩
    · intro w hw
      cases hw
    · rintro f hf ⟨w, hw, -⟩
      cases hw
  | cons v vs ih =>
    obtain ⟨hv, hvs⟩ := List.nodup_cons.1 hvs
    have henv := Assignment.env_concat (ha v List.mem_cons_self)
    have hrest : ∀ n, (search radius (levels fs vs) (a ++ [(v, n)])).isSome ↔
        ∃ env, Completes radius fs vs (Function.update a.env v n) env := by
      intro n
      rw [ih hvs (lookup_concat_eq_none ha hv n), henv]
    rw [levels, search, firstFrom_isSome_iff]
    simp only [isSome_ite_none, henv, hrest, all_checks]
    constructor
    · rintro ⟨n, hrange, hchecks, env, h⟩
      exact ⟨env, ((completes_cons_iff_checks hv).2 ⟨by omega, hchecks, h⟩).1⟩
    · rintro ⟨env, h⟩
      obtain ⟨hrange, hchecks, h⟩ := (completes_cons_iff_checks hv).1 ⟨h, rfl⟩
      exact ⟨env v, by omega, hchecks, env, h⟩

/-! ## All formulas together -/

theorem mem_order {fs : List Formula} {v : Var} : v ∈ order fs ↔ ∃ f ∈ fs, v ∈ f.vars := by
  rw [order, List.mem_eraseDups, List.mem_flatMap]

/-- The variables that no formula names set to zero. -/
def restrict (fs : List Formula) (env : Var → Int) (v : Var) : Int :=
  if v ∈ order fs then env v else 0

theorem models_restrict {fs : List Formula} {env : Var → Int} :
    Models (restrict fs env) fs ↔ Models env fs := by
  refine models_congr fun f hf v hv => ?_
  exact if_pos (mem_order.2 ⟨f, hf, hv⟩)

theorem isEmpty_freeVars {f : Formula} : f.freeVars.isEmpty = true ↔ ∀ v, v ∉ f.vars := by
  rw [List.isEmpty_iff, List.eq_nil_iff_forall_not_mem]
  exact forall_congr' fun v => not_congr Formula.mem_freeVars

/-- All formulas hold, and the variables that they name have values within the radius. -/
structure Solves (radius : Int) (fs : List Formula) (env : Var → Int) : Prop where
  within : ∀ v ∈ order fs, -radius ≤ env v ∧ env v ≤ radius
  models : Models env fs

def Satisfiable (radius : Int) (fs : List Formula) : Prop := ∃ env, Solves radius fs env

theorem solves_restrict {radius : Int} {fs : List Formula} {env : Var → Int}
    (h : Solves radius fs env) : Solves radius fs (restrict fs env) where
  within w hw := by
    rw [restrict, if_pos hw]
    exact h.within w hw
  models := models_restrict.2 h.models

/-- A formula without variables is checked before the search, all others within. -/
theorem completes_order_iff {radius : Int} {fs : List Formula} {env : Var → Int} :
    (∀ f ∈ fs, (∀ v, v ∉ f.vars) → f.eval (Assignment.env []) = true) ∧
        Completes radius fs (order fs) (Assignment.env []) env ↔
      Solves radius fs env ∧ ∀ w, w ∉ order fs → env w = 0 := by
  have hground : ∀ f : Formula, (∀ v, v ∉ f.vars) →
      f.eval (Assignment.env []) = f.eval env :=
    fun f hf => Formula.eval_congr fun v hv => absurd hv (hf v)
  constructor
  · rintro ⟨hall, h⟩
    refine ⟨⟨h.within, fun f hf => ?_⟩, h.outside⟩
    by_cases hv : ∀ v, v ∉ f.vars
    · rw [← hground f hv]
      exact hall f hf hv
    · obtain ⟨v, hv⟩ := not_forall_not.1 hv
      exact h.holds f hf ⟨v, mem_order.2 ⟨f, hf, hv⟩, hv⟩
  · rintro ⟨h, houtside⟩
    refine ⟨fun f hf hv => ?_, houtside, h.within, fun f hf _ => h.models f hf⟩
    rw [hground f hv]
    exact h.models f hf

theorem all_ground {fs : List Formula} :
    ((fs.filter fun f => f.freeVars.isEmpty).all fun f => f.eval (Assignment.env [])) = true ↔
      ∀ f ∈ fs, (∀ v, v ∉ f.vars) → f.eval (Assignment.env []) = true := by
  simp only [List.all_eq_true, List.mem_filter, isEmpty_freeVars, and_imp]

theorem solve_isSome_iff {radius : Int} {fs : List Formula} :
    (solve radius fs).isSome ↔ Satisfiable radius fs := by
  have hsearch : (search radius (levels fs (order fs)) []).isSome ↔
      ∃ env, Completes radius fs (order fs) (Assignment.env []) env :=
    search_isSome_iff (nodup_eraseDups _) fun _ _ => rfl
  rw [solve, isSome_ite_none, hsearch, all_ground]
  constructor
  · rintro ⟨hground, env, h⟩
    exact ⟨env, (completes_order_iff.1 ⟨hground, h⟩).1⟩
  · rintro ⟨env, h⟩
    obtain ⟨hground, hc⟩ :=
      completes_order_iff.2 ⟨solves_restrict h, fun w hw => if_neg hw⟩
    exact ⟨hground, restrict fs env, hc⟩

/-- A variable that no formula names can have the value zero. -/
theorem solve_isSome_iff_of_nonneg {radius : Int} (hr : 0 ≤ radius) {fs : List Formula} :
    (solve radius fs).isSome ↔ ∃ env, (∀ v, -radius ≤ env v ∧ env v ≤ radius) ∧ Models env fs := by
  rw [solve_isSome_iff]
  constructor
  · rintro ⟨env, h⟩
    refine ⟨restrict fs env, fun v => ?_, models_restrict.2 h.models⟩
    rw [restrict]
    split
    · rename_i hv
      exact h.within v hv
    · omega
  · rintro ⟨env, hwithin, hmodels⟩
    exact ⟨env, fun v _ => hwithin v, hmodels⟩

theorem solve_isSome_congr {radius : Int} (hr : 0 ≤ radius) {fs gs : List Formula}
    (h : SameSolutions fs gs) : (solve radius fs).isSome = (solve radius gs).isSome := by
  rw [Bool.eq_iff_iff, solve_isSome_iff_of_nonneg hr, solve_isSome_iff_of_nonneg hr]
  exact exists_congr fun env => and_congr_right fun _ => h env

end Grid

end IntervalPruning
