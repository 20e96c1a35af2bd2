import IntervalPruning.Affine
import IntervalPruning.Formula.Vars

/-!
# IntervalPruning.Formula.Bound

Constraints that say no more than "this variable lies in this interval":

* `comparison?` — the comparison that a formula states, possibly under a negation;
* `bound?`      — the variable and the interval, when the comparison has a single variable and
  its two sides differ by an affine form with slope 1 or -1.

The main statement is `mem_bound`: the values of the variable in the interval are exactly
those that satisfy the formula.
-/

namespace IntervalPruning

namespace Formula

/-- A negated comparison is the comparison with the negated relation, when there is one. -/
def comparison? : Formula → Option (Rel × Term × Term)
  | cmp r s t => some (r, s, t)
  | not (cmp r s t) => r.negate?.map fun r' => (r', s, t)
  | _ => none

def solve? (r : Rel) (s t : Term) : Option Interval := do
  let d ← s.affine?
  let e ← t.affine?
  (d.sub e).solve? r

def bound? (f : Formula) : Option (Var × Interval) :=
  match f.comparison?, f.freeVars with
  | some (r, s, t), [v] => (solve? r s t).map fun i => (v, i)
  | _, _ => none

theorem eval_comparison {f : Formula} {r : Rel} {s t : Term}
    (h : f.comparison? = some (r, s, t)) (env : Var → Int) :
    f.eval env = r.holds (s.eval env) (t.eval env) ∧ f.vars = s.vars ++ t.vars := by
  unfold comparison? at h
  split at h
  · cases h; exact ⟨rfl, rfl⟩
  · obtain ⟨r', hr, h⟩ := Option.map_eq_some_iff.1 h
    cases h
    exact ⟨(Rel.holds_negate hr _ _).symm, rfl⟩
  · cases h

theorem mem_bound {f : Formula} {v : Var} {i : Interval} (h : f.bound? = some (v, i))
    (env : Var → Int) : env v ∈ i ↔ f.eval env = true := by
  unfold bound? at h
  split at h
  · rename_i r s t w hc hw
    obtain ⟨j, hj, h⟩ := Option.map_eq_some_iff.1 h
    cases h
    simp only [solve?, bind, Option.bind_eq_some_iff] at hj
    obtain ⟨d, hd, e, he, hj⟩ := hj
    obtain ⟨hev, hvars⟩ := eval_comparison hc env
    have hall : ∀ u ∈ s.vars ++ t.vars, env u = env v := by
      intro u hu
      rw [← hvars, ← mem_freeVars, hw, List.mem_singleton] at hu
      rw [hu]
    rw [Affine.mem_solve hj, Affine.eval_sub, hev,
      Term.eval_affine hd env (env v) fun u hu => hall u (List.mem_append_left _ hu),
      Term.eval_affine he env (env v) fun u hu => hall u (List.mem_append_right _ hu),
      ← Affine.holds_add_right r _ 0 (e.eval (env v))]
    simp
  · cases h

end Formula

end IntervalPruning
