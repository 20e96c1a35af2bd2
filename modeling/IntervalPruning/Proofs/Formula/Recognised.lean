import IntervalPruning.Formula.Bound
import IntervalPruning.Proofs.Formula.Nodes

/-!
# IntervalPruning.Proofs.Formula.Recognised

Which formulas are recognised as a bound. The calculation with affine forms reads the syntax; what
it finds is said here in terms of values. `Term.gap s t n` is the difference of two terms when every
variable has the value `n`, and the slope of the affine form found for the two is its growth from 0
to 1 (`Term.slope_eq_gap`).

The calculation gives up on products only, and on no product with a factor that mentions no variable
(`Term.exists_affine`): the form found for such a factor has slope 0, because its value does not
change with the variable. So, among comparisons in one variable with only such products,
`Formula.bound?_recognises` lets the growth of the difference decide, and whatever else is
recognised is a straight line of slope 1 or -1 too.
-/

namespace IntervalPruning

namespace Affine

variable {d e : Affine}

theorem slope_eq (d : Affine) : d.slope = d.eval 1 - d.eval 0 := by
  simp [eval]

theorem exists_mul (h : d.slope = 0 ∨ e.slope = 0) : ∃ f, d.mul? e = some f := by
  by_cases hd : d.slope = 0
  · exact ⟨_, if_pos hd⟩
  · have he : e.slope = 0 := h.resolve_left hd
    simp [mul?, hd, he]

theorem isSome_solve {r : Rel} : (d.solve? r).isSome ↔ d.slope = 1 ∨ d.slope = -1 := by
  unfold solve?
  split
  · rename_i h
    simp [h]
  · split
    · rename_i h
      simp [h]
    · simp_all

end Affine

namespace Term

/-- Every product has a factor that mentions no variable. -/
def Scales (t : Term) : Prop := ∀ u w, bin .mul u w ∈ t.nodes → u.vars = [] ∨ w.vars = []

@[simp] theorem scales_var (v : Var) : (var v).Scales := by
  simp [Scales, nodes]

@[simp] theorem scales_const (n : Int) : (const n).Scales := by
  simp [Scales, nodes]

@[simp] theorem scales_neg {t : Term} : (neg t).Scales ↔ t.Scales := by
  simp [Scales, nodes]

@[simp] theorem scales_bin {op : Arith} {s t : Term} :
    (bin op s t).Scales ↔ s.Scales ∧ t.Scales ∧ (op = .mul → s.vars = [] ∨ t.vars = []) := by
  simp only [Scales, nodes, List.mem_cons, List.mem_append]
  constructor
  · intro h
    refine ⟨fun u w hmem => h u w (by simp [hmem]), fun u w hmem => h u w (by simp [hmem]), ?_⟩
    rintro rfl
    exact h s t (by simp)
  · rintro ⟨hs, ht, hmul⟩ u w (heq | hmem | hmem)
    · cases heq
      exact hmul rfl
    · exact hs u w hmem
    · exact ht u w hmem

/-- The difference of two terms when every variable has the value `n`. -/
def gap (s t : Term) (n : Int) : Int := s.eval (fun _ => n) - t.eval fun _ => n

theorem slope_affine_of_closed {t : Term} {d : Affine} (h : t.affine? = some d)
    (hvars : t.vars = []) : d.slope = 0 := by
  have hval : ∀ x, t.eval (fun _ => 0) = d.eval x := by
    intro x
    apply eval_affine h
    simp [hvars]
  have h0 := hval 0
  have h1 := hval 1
  have hslope := d.slope_eq
  omega

theorem exists_affine {t : Term} (h : t.Scales) : ∃ d, t.affine? = some d := by
  induction t with
  | var v => exact ⟨_, rfl⟩
  | const n => exact ⟨_, rfl⟩
  | neg t ih =>
    obtain ⟨d, hd⟩ := ih (scales_neg.1 h)
    exact ⟨d.scale (-1), by simp [affine?, hd]⟩
  | bin op s t ihs iht =>
    obtain ⟨hs, ht, hmul⟩ := scales_bin.1 h
    obtain ⟨d, hd⟩ := ihs hs
    obtain ⟨e, he⟩ := iht ht
    cases op with
    | add => exact ⟨d.add e, by simp [affine?, hd, he]⟩
    | sub => exact ⟨d.sub e, by simp [affine?, hd, he]⟩
    | mul =>
      have hfactor : d.slope = 0 ∨ e.slope = 0 :=
        (hmul rfl).imp (slope_affine_of_closed hd) (slope_affine_of_closed he)
      obtain ⟨f, hf⟩ := Affine.exists_mul hfactor
      exact ⟨f, by simp [affine?, hd, he, hf]⟩

section Gap

variable {s t : Term} {d e : Affine}

theorem gap_eq_eval (hs : s.affine? = some d) (ht : t.affine? = some e) (n : Int) :
    gap s t n = (d.sub e).eval n := by
  have hsn : s.eval (fun _ => n) = d.eval n := eval_affine hs _ n fun _ _ => rfl
  have htn : t.eval (fun _ => n) = e.eval n := eval_affine ht _ n fun _ _ => rfl
  rw [gap, hsn, htn, Affine.eval_sub]

theorem slope_eq_gap (hs : s.affine? = some d) (ht : t.affine? = some e) :
    (d.sub e).slope = gap s t 1 - gap s t 0 := by
  rw [gap_eq_eval hs ht, gap_eq_eval hs ht]
  exact Affine.slope_eq _

theorem gap_eq_line (hs : s.affine? = some d) (ht : t.affine? = some e) (n : Int) :
    gap s t n = (d.sub e).slope * n + gap s t 0 := by
  rw [gap_eq_eval hs ht, gap_eq_eval hs ht]
  simp [Affine.eval]

end Gap

end Term

namespace Formula

variable {f : Formula} {r : Rel} {s t : Term}

/-- A comparison of `s` with `t`, or the negation of one that is no equation. -/
inductive Compares : Formula → Term → Term → Prop where
  | cmp (r : Rel) (s t : Term) : Compares (cmp r s t) s t
  | not {r : Rel} (h : r ≠ .eq) (s t : Term) : Compares (not (cmp r s t)) s t

theorem compares_of_comparison (h : f.comparison? = some (r, s, t)) : f.Compares s t := by
  unfold comparison? at h
  split at h
  · cases h
    exact .cmp _ _ _
  · rename_i q _ _
    obtain ⟨q', hq, h⟩ := Option.map_eq_some_iff.1 h
    cases h
    refine .not ?_ _ _
    rintro rfl
    cases hq
  · cases h

theorem Compares.exists_comparison (h : f.Compares s t) : ∃ r, f.comparison? = some (r, s, t) := by
  cases h with
  | cmp r => exact ⟨r, rfl⟩
  | @not r hr =>
    cases r with
    | eq => exact absurd rfl hr
    | lt => exact ⟨.ge, rfl⟩
    | le => exact ⟨.gt, rfl⟩
    | gt => exact ⟨.le, rfl⟩
    | ge => exact ⟨.lt, rfl⟩

theorem isSome_solve {r : Rel} :
    (solve? r s t).isSome ↔ ∃ d e, s.affine? = some d ∧ t.affine? = some e ∧
      ((d.sub e).slope = 1 ∨ (d.sub e).slope = -1) := by
  simp only [solve?, bind, Option.isSome_bind, Option.any_eq_true, Affine.isSome_solve]
  constructor
  · rintro ⟨d, hd, e, he, h⟩
    exact ⟨d, e, hd, he, h⟩
  · rintro ⟨d, e, hd, he, h⟩
    exact ⟨d, hd, e, he, h⟩

theorem isSome_bound_of_comparison (h : f.comparison? = some (r, s, t)) :
    f.bound?.isSome ↔ f.freeVars.length = 1 ∧ (solve? r s t).isSome := by
  rw [List.length_eq_one_iff]
  unfold bound?
  rw [h]
  constructor
  · intro hsome
    split at hsome
    · rename_i q s' t' v hq hv
      cases hq
      exact ⟨⟨v, hv⟩, by simpa using hsome⟩
    · cases hsome
  · rintro ⟨⟨v, hv⟩, hsome⟩
    simpa [hv] using hsome

theorem exists_comparison_of_bound (h : f.bound?.isSome) :
    ∃ r s t, f.comparison? = some (r, s, t) ∧ f.freeVars.length = 1 ∧ (solve? r s t).isSome := by
  cases hc : f.comparison? with
  | none => simp [bound?, hc] at h
  | some c =>
    obtain ⟨r, s, t⟩ := c
    exact ⟨r, s, t, rfl, (isSome_bound_of_comparison hc).1 h⟩

/-- **The recognised shapes.** A formula that is no comparison, nor the negation of one by an order
relation, or that has not exactly one variable, is no bound. Among the others, if all products
scale by terms without variables, the bounds are those with sides whose difference grows by 1 or -1
from 0 to 1. And whatever its products, the difference of the sides of a bound is a straight line of
slope 1 or -1. -/
theorem bound?_recognises (f : Formula) :
    ((∀ s t, ¬ f.Compares s t) ∨ f.freeVars.length ≠ 1 → f.bound? = none) ∧
      (∀ s t, f.Compares s t → f.freeVars.length = 1 → s.Scales → t.Scales →
        (f.bound?.isSome ↔
          s.gap t 1 - s.gap t 0 = 1 ∨ s.gap t 1 - s.gap t 0 = -1)) ∧
      (f.bound?.isSome →
        ∃ s t, f.Compares s t ∧ ∃ a, (a = 1 ∨ a = -1) ∧ ∀ n, s.gap t n = a * n + s.gap t 0) := by
  refine ⟨?_, ?_, ?_⟩
  · intro h
    rw [← Option.not_isSome_iff_eq_none]
    intro hsome
    obtain ⟨r, s, t, hc, hvars, -⟩ := exists_comparison_of_bound hsome
    exact h.elim (fun hno => hno s t (compares_of_comparison hc)) fun hne => hne hvars
  · intro s t hc hvars hs ht
    obtain ⟨r, hr⟩ := hc.exists_comparison
    obtain ⟨d, hd⟩ := Term.exists_affine hs
    obtain ⟨e, he⟩ := Term.exists_affine ht
    rw [isSome_bound_of_comparison hr, isSome_solve, ← Term.slope_eq_gap hd he]
    simp [hvars, hd, he]
  · intro h
    obtain ⟨r, s, t, hc, -, hsolve⟩ := exists_comparison_of_bound h
    obtain ⟨d, e, hd, he, hslope⟩ := isSome_solve.1 hsolve
    exact ⟨s, t, compares_of_comparison hc, (d.sub e).slope, hslope, Term.gap_eq_line hd he⟩

/-- `!(3 * x - x * 2 > 4)` is recognised although `x` occurs twice, and `!(x == 5)` is not. In
`(x - x + 2) * x - x <= 7` both factors mention `x`, but the sides differ by `x - 7`. -/
theorem bound?_recognises_products :
    let x : Term := .var ⟨0⟩
    let once : Term := .bin .sub (.bin .mul (.const 3) x) (.bin .mul x (.const 2))
    let double : Term := .bin .mul (.bin .add (.bin .sub x x) (.const 2)) x
    let unequal : Formula := .not (.cmp .eq x (.const 5))
    let line : Formula := .cmp .le (.bin .sub double x) (.const 7)
    unequal.bound? = none ∧ (Formula.not (.cmp .gt once (.const 4))).bound?.isSome ∧
      (¬ double.Scales ∧ line.bound?.isSome) ∧
      ∃ s t, line.Compares s t ∧ ∃ a, (a = 1 ∨ a = -1) ∧ ∀ n, s.gap t n = a * n + s.gap t 0 := by
  intro x once double unequal line
  have hunequal : ∀ s t, ¬ (Formula.not (.cmp .eq x (.const 5))).Compares s t := by
    intro s t h
    cases h with
    | not hr => exact hr rfl
  have honce : once.Scales := by simp [once, x, Term.vars]
  have hgap : once.gap (.const 4) 1 - once.gap (.const 4) 0 = 1 := by decide
  have hline : line.bound?.isSome := by decide
  refine ⟨(bound?_recognises unequal).1 (.inl hunequal), ?_, ⟨?_, hline⟩, ?_⟩
  · have hcompares : (Formula.not (.cmp .gt once (.const 4))).Compares once (.const 4) :=
      .not (by decide) _ _
    exact ((bound?_recognises _).2.1 once (.const 4) hcompares (by decide) honce (by simp)).2
      (.inl hgap)
  · simp [double, x, Term.vars]
  · exact (bound?_recognises line).2.2 hline

end Formula

end IntervalPruning
