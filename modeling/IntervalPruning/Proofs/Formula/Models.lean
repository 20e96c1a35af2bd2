import IntervalPruning.Formula.Vars
import Mathlib.Data.List.Forall2

/-!
# IntervalPruning.Proofs.Formula.Models

`Models env fs` says that all formulas of a list hold under an assignment, and
`SameSolutions fs gs` that two lists hold under the same assignments. Formulas with the same truth
value, taken pairwise, are interchangeable (`models_iff_of_forall₂`).
-/

namespace IntervalPruning

variable {env env' : Var → Int} {fs gs hs : List Formula}

def Models (env : Var → Int) (fs : List Formula) : Prop := ∀ f ∈ fs, f.eval env = true

@[simp] theorem models_nil : Models env [] := by
  intro f hf
  cases hf

@[simp] theorem models_append : Models env (fs ++ gs) ↔ Models env fs ∧ Models env gs :=
  List.forall_mem_append

@[simp] theorem models_singleton {f : Formula} : Models env [f] ↔ f.eval env = true :=
  List.forall_mem_singleton

theorem models_iff_of_forall₂ (h : List.Forall₂ (fun f g => f.eval env = g.eval env) fs gs) :
    Models env fs ↔ Models env gs := by
  unfold Models
  induction h with
  | nil => exact Iff.rfl
  | cons hfg _ ih => rw [List.forall_mem_cons, List.forall_mem_cons, hfg, ih]

/-- Only the values of the variables that occur count. -/
theorem models_congr (h : ∀ f ∈ fs, ∀ v ∈ f.vars, env v = env' v) :
    Models env fs ↔ Models env' fs := by
  refine forall₂_congr fun f hf => ?_
  rw [Formula.eval_congr (h f hf)]

def SameSolutions (fs gs : List Formula) : Prop := ∀ env, Models env fs ↔ Models env gs

theorem SameSolutions.append_right (h : SameSolutions fs gs) (hs : List Formula) :
    SameSolutions (fs ++ hs) (gs ++ hs) := by
  intro env
  rw [models_append, models_append, h env]

end IntervalPruning
