import IntervalPruning.Formula.Vars
import IntervalPruning.Proofs.Keys
import Mathlib.Data.Finset.Insert

/-!
# IntervalPruning.Proofs.Formula.Census

The variables of a formula collected in one walk through the tree. A set of the variables met so far
and a list of them, in the order in which they were met, are handed on from one part of the tree to
the next, so what happens in a part depends on everything to its left.

`Census.Counts` says which places such a census has been at. Each part of a tree adds its own places,
whatever was counted before it (`Census.Counts.term`, `Census.Counts.formula`), and a walk that begins
with nothing lists the free variables (`Formula.order_collect`).
-/

namespace IntervalPruning

structure Census where
  seen : Finset Var
  order : List Var

namespace Census

def empty : Census := ⟨∅, []⟩

def note (c : Census) (v : Var) : Census :=
  if v ∈ c.seen then c else ⟨insert v c.seen, c.order ++ [v]⟩

end Census

def Term.collect (c : Census) : Term → Census
  | var v => c.note v
  | const _ => c
  | neg t => t.collect c
  | bin _ s t => t.collect (s.collect c)

namespace Formula

mutual
def collect (c : Census) : Formula → Census
  | const _ => c
  | cmp _ s t => t.collect (s.collect c)
  | not f => f.collect c
  | conn _ args => collectArgs c args

def collectArgs (c : Census) : List Formula → Census
  | [] => c
  | f :: fs => collectArgs (f.collect c) fs
end

end Formula

namespace Census

/-- The census has been at the places `vs` and at no others. -/
structure Counts (c : Census) (vs : List Var) : Prop where
  order : c.order = vs.eraseDups
  seen : ∀ v, v ∈ c.seen ↔ v ∈ vs

namespace Counts

variable {c : Census} {vs : List Var}

theorem empty : Census.empty.Counts [] := by
  constructor
  · rfl
  · intro v
    simp [Census.empty]

theorem note (h : c.Counts vs) (v : Var) : (c.note v).Counts (vs ++ [v]) := by
  unfold Census.note
  by_cases hv : v ∈ vs
  · rw [if_pos ((h.seen v).2 hv)]
    constructor
    · rw [eraseDups_concat, if_pos hv, h.order]
    · intro w
      rw [h.seen, List.mem_append, List.mem_singleton]
      exact ⟨.inl, fun hw => hw.elim id fun heq => heq ▸ hv⟩
  · rw [if_neg fun hseen => hv ((h.seen v).1 hseen)]
    constructor
    · rw [eraseDups_concat, if_neg hv, h.order]
    · intro w
      rw [Finset.mem_insert, h.seen, List.mem_append, List.mem_singleton]
      exact or_comm

theorem term (h : c.Counts vs) (t : Term) : (t.collect c).Counts (vs ++ t.vars) := by
  induction t generalizing c vs with
  | var v => exact h.note v
  | const n =>
    rw [Term.vars, List.append_nil]
    exact h
  | neg t ih => exact ih h
  | bin op s t ihs iht =>
    rw [Term.vars, ← List.append_assoc]
    exact iht (ihs h)

theorem args (h : c.Counts vs) {fs : List Formula}
    (ih : ∀ f ∈ fs, ∀ {c : Census} {vs : List Var}, c.Counts vs → (f.collect c).Counts (vs ++ f.vars)) :
    (Formula.collectArgs c fs).Counts (vs ++ Formula.varsArgs fs) := by
  induction fs generalizing c vs with
  | nil =>
    rw [Formula.varsArgs, List.append_nil]
    exact h
  | cons f fs ihs =>
    have hf := ih f List.mem_cons_self h
    rw [Formula.varsArgs, ← List.append_assoc]
    exact ihs hf fun g hg => ih g (List.mem_cons_of_mem f hg)

theorem formula (h : c.Counts vs) (f : Formula) : (f.collect c).Counts (vs ++ f.vars) := by
  induction f generalizing c vs with
  | const b =>
    rw [Formula.vars, List.append_nil]
    exact h
  | cmp r s t =>
    rw [Formula.vars, ← List.append_assoc]
    exact (h.term s).term t
  | not f ih => exact ih h
  | conn k fs ih => exact h.args fun f hf => ih f hf

end Counts

end Census

theorem Formula.order_collect (f : Formula) : (f.collect .empty).order = f.freeVars :=
  (Census.Counts.empty.formula f).order

end IntervalPruning
