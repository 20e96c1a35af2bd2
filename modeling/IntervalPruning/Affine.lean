import IntervalPruning.Term

/-!
# IntervalPruning.Affine

Terms over one variable that are `slope * x + offset` after all. Mathematical meaning:
`Affine.eval d x` is that value; `Term.affine?` finds the form by calculation, and gives up on a
product of two factors that both still depend on the variable. Which variable it is does not
matter here: a term is read as if all its variables were the same one.

An affine form with slope 1 or -1 can be solved for `x`: `Affine.solve?` gives the interval of
the solutions of a comparison with zero.
-/

namespace IntervalPruning

structure Affine where
  slope : Int
  offset : Int
  deriving DecidableEq, Repr

namespace Affine

def eval (d : Affine) (x : Int) : Int := d.slope * x + d.offset

def const (n : Int) : Affine := ⟨0, n⟩

def add (d e : Affine) : Affine := ⟨d.slope + e.slope, d.offset + e.offset⟩

def sub (d e : Affine) : Affine := ⟨d.slope - e.slope, d.offset - e.offset⟩

def scale (k : Int) (d : Affine) : Affine := ⟨d.slope * k, d.offset * k⟩

/-- A product is affine when one factor is constant. -/
def mul? (d e : Affine) : Option Affine :=
  if d.slope = 0 then some (e.scale d.offset)
  else if e.slope = 0 then some (d.scale e.offset)
  else none

@[simp] theorem eval_const (n x : Int) : (const n).eval x = n := by
  simp [const, eval]

theorem eval_add (d e : Affine) (x : Int) : (d.add e).eval x = d.eval x + e.eval x := by
  simp only [add, eval, Int.add_mul]; omega

theorem eval_sub (d e : Affine) (x : Int) : (d.sub e).eval x = d.eval x - e.eval x := by
  simp only [sub, eval, Int.sub_mul]; omega

theorem eval_scale (k : Int) (d : Affine) (x : Int) : (d.scale k).eval x = d.eval x * k := by
  simp only [scale, eval, Int.add_mul, Int.mul_assoc, Int.mul_comm k x]

theorem eval_mul {d e f : Affine} (h : d.mul? e = some f) (x : Int) :
    f.eval x = d.eval x * e.eval x := by
  unfold mul? at h
  split at h
  · rename_i hd; cases h
    rw [eval_scale, Int.mul_comm]
    simp [eval, hd]
  · split at h
    · rename_i he; cases h
      rw [eval_scale]
      simp [eval, he]
    · cases h

/-- The interval of the `x` with `d.eval x` in the relation to zero. -/
def solve? (d : Affine) (r : Rel) : Option Interval :=
  if d.slope = 1 then some (r.interval (-d.offset))
  else if d.slope = -1 then some (r.flip.interval d.offset)
  else none

theorem holds_add_right (r : Rel) (m n k : Int) : r.holds (m + k) (n + k) = r.holds m n := by
  cases r <;> simp [Rel.holds]

theorem mem_solve {d : Affine} {r : Rel} {i : Interval} (h : d.solve? r = some i) (x : Int) :
    x ∈ i ↔ r.holds (d.eval x) 0 = true := by
  unfold solve? at h
  split at h
  · rename_i hs; cases h
    rw [Rel.mem_interval, ← holds_add_right r x (-d.offset) d.offset, Int.add_left_neg]
    simp [eval, hs]
  · split at h
    · rename_i hs; cases h
      rw [Rel.mem_interval, Rel.holds_flip, ← holds_add_right r d.offset x (-x), Int.add_right_neg]
      simp [eval, hs, Int.add_comm]
    · cases h

end Affine

namespace Term

def affine? : Term → Option Affine
  | var _ => some ⟨1, 0⟩
  | const n => some (.const n)
  | neg t => do
    let d ← t.affine?
    some (d.scale (-1))
  | bin .add s t => do
    let d ← s.affine?
    let e ← t.affine?
    some (d.add e)
  | bin .sub s t => do
    let d ← s.affine?
    let e ← t.affine?
    some (d.sub e)
  | bin .mul s t => do
    let d ← s.affine?
    let e ← t.affine?
    d.mul? e

theorem eval_affine {t : Term} {d : Affine} (h : t.affine? = some d) (env : Var → Int) (x : Int)
    (hx : ∀ v ∈ t.vars, env v = x) : t.eval env = d.eval x := by
  induction t generalizing d with
  | var v => cases h; simp [eval, Affine.eval, hx v (List.mem_singleton_self v)]
  | const n => cases h; simp [eval]
  | neg t ih =>
    simp only [affine?, bind, Option.bind_eq_some_iff] at h
    obtain ⟨e, he, h⟩ := h; cases h
    rw [Affine.eval_scale, eval, ih he hx]; omega
  | bin op s t ihs iht =>
    cases op
    all_goals
      simp only [affine?, bind, Option.bind_eq_some_iff] at h
      obtain ⟨e, he, f, hf, h⟩ := h
      rw [eval, ihs he fun v hv => hx v (List.mem_append_left _ hv),
        iht hf fun v hv => hx v (List.mem_append_right _ hv)]
    case add => cases h; exact (Affine.eval_add e f x).symm
    case sub => cases h; exact (Affine.eval_sub e f x).symm
    case mul => exact (Affine.eval_mul h x).symm

end Term

end IntervalPruning
