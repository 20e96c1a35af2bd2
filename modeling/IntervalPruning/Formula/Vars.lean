import IntervalPruning.Formula.Basic

/-!
# IntervalPruning.Formula.Vars

Which variables a formula speaks about:

* `vars`     — from left to right, once for each place;
* `freeVars` — each once, in the order of first occurrence.
-/

namespace IntervalPruning

namespace Formula

mutual
def vars : Formula → List Var
  | const _ => []
  | cmp _ s t => s.vars ++ t.vars
  | not f => f.vars
  | conn _ args => varsArgs args

def varsArgs : List Formula → List Var
  | [] => []
  | f :: fs => f.vars ++ varsArgs fs
end

theorem varsArgs_eq_flatMap (fs : List Formula) : varsArgs fs = fs.flatMap vars := by
  induction fs with
  | nil => rfl
  | cons f fs ih => simp [varsArgs, ih]

theorem mem_vars_of_mem_args {c : Connective} {args : List Formula} {f : Formula} {v : Var}
    (hf : f ∈ args) (hv : v ∈ f.vars) : v ∈ (conn c args).vars := by
  rw [vars, varsArgs_eq_flatMap, List.mem_flatMap]
  exact ⟨f, hf, hv⟩

def freeVars (f : Formula) : List Var := f.vars.eraseDups

@[simp] theorem mem_freeVars {f : Formula} {v : Var} : v ∈ f.freeVars ↔ v ∈ f.vars :=
  List.mem_eraseDups

/-- The truth value depends on the variables that occur, and on nothing else. -/
theorem eval_congr {f : Formula} {env env' : Var → Int} (h : ∀ v ∈ f.vars, env v = env' v) :
    f.eval env = f.eval env' := by
  induction f with
  | const b => rfl
  | cmp r s t =>
    have hs := Term.eval_congr fun v hv => h v (List.mem_append_left t.vars hv)
    have ht := Term.eval_congr fun v hv => h v (List.mem_append_right s.vars hv)
    simp only [eval, hs, ht]
  | not f ih => simp only [eval, ih h]
  | conn c args ih =>
    simp only [eval]
    simp only [vars] at h
    induction args with
    | nil => rfl
    | cons g gs ihs =>
      have hg := ih g List.mem_cons_self fun v hv => h v (List.mem_append_left _ hv)
      have hgs := ihs (fun f hf => ih f (List.mem_cons_of_mem _ hf))
        fun v hv => h v (List.mem_append_right _ hv)
      simp only [evalArgs, hg, hgs]

end Formula

end IntervalPruning
