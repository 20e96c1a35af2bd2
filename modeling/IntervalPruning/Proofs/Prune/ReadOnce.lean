import IntervalPruning.Proofs.Interval.Verdict
import IntervalPruning.Proofs.Prune.Reduce

/-!
# IntervalPruning.Proofs.Prune.ReadOnce

Terms and comparisons that read each variable once. Two operands share no variable then, so whatever
values the two have, they have them under one assignment too (`Term.exists_env_of_mem_values`).
Hence the interval of a term spans its values (`Term.spans_values`), and an order comparison is
folded exactly if it has one truth value for all assignments in range
(`Formula.reduce_cmp_eq_const_iff`).

`Ranges.prune_exact_of_readOnce` says it of what ranges know. Left out are ranges with an interval
like `[+∞, +∞]`, whose ends have not crossed although it holds no integer.
-/

namespace IntervalPruning

open scoped Pointwise

variable {range : Var → Interval}

theorem Arith.mem_apply_iff {op : Arith} {s t : Set Int} {n : Int} :
    n ∈ op.apply s t ↔ ∃ u ∈ s, ∃ v ∈ t, op.apply u v = n := by
  cases op <;> rfl

namespace Term

/-- The values of a term, over all assignments that keep its variables in range. -/
def values (range : Var → Interval) (t : Term) : Set Int :=
  {n | ∃ env : Var → Int, (∀ v ∈ t.vars, env v ∈ range v) ∧ t.eval env = n}

/-- One assignment on the variables `vs`, and another one elsewhere. -/
def splice (vs : List Var) (env env' : Var → Int) (v : Var) : Int :=
  if v ∈ vs then env v else env' v

theorem exists_env_of_mem_values {s t : Term} (h : (s.vars ++ t.vars).Nodup) {m n : Int}
    (hm : m ∈ s.values range) (hn : n ∈ t.values range) :
    ∃ env : Var → Int, (∀ v ∈ s.vars ++ t.vars, env v ∈ range v) ∧
      s.eval env = m ∧ t.eval env = n := by
  obtain ⟨env, henv, rfl⟩ := hm
  obtain ⟨env', henv', rfl⟩ := hn
  obtain ⟨-, -, hdisjoint⟩ := List.nodup_append.1 h
  have hs : ∀ v ∈ s.vars, splice s.vars env env' v = env v := fun v hv => if_pos hv
  have ht : ∀ v ∈ t.vars, splice s.vars env env' v = env' v :=
    fun v hv => if_neg fun hv' => hdisjoint v hv' v hv rfl
  refine ⟨splice s.vars env env', fun v hv => ?_, eval_congr hs, eval_congr ht⟩
  rcases List.mem_append.1 hv with hv | hv
  · rw [hs v hv]
    exact henv v hv
  · rw [ht v hv]
    exact henv' v hv

theorem values_var (range : Var → Interval) (v : Var) :
    (var v).values range = {n | n ∈ range v} := by
  ext n
  constructor
  · rintro ⟨env, henv, rfl⟩
    exact henv v (List.mem_singleton_self v)
  · intro hn
    exact ⟨fun _ => n, fun w hw => List.mem_singleton.1 hw ▸ hn, rfl⟩

theorem values_const (range : Var → Interval) (n : Int) : (const n).values range = {n} := by
  ext m
  constructor
  · rintro ⟨env, -, rfl⟩
    rfl
  · rintro rfl
    exact ⟨fun _ => 0, nofun, rfl⟩

theorem values_neg (range : Var → Interval) (t : Term) :
    (neg t).values range = -t.values range := by
  ext n
  rw [Set.mem_neg]
  constructor
  · rintro ⟨env, henv, rfl⟩
    exact ⟨env, henv, (neg_neg (t.eval env)).symm⟩
  · rintro ⟨env, henv, hn⟩
    exact ⟨env, henv, by rw [eval, hn, neg_neg]⟩

theorem values_bin (op : Arith) {s t : Term} (h : (s.vars ++ t.vars).Nodup) :
    (bin op s t).values range = op.apply (s.values range) (t.values range) := by
  ext n
  rw [Arith.mem_apply_iff]
  constructor
  · rintro ⟨env, henv, rfl⟩
    have hs : ∀ v ∈ s.vars, env v ∈ range v := fun v hv => henv v (List.mem_append_left _ hv)
    have ht : ∀ v ∈ t.vars, env v ∈ range v := fun v hv => henv v (List.mem_append_right _ hv)
    exact ⟨s.eval env, ⟨env, hs, rfl⟩, t.eval env, ⟨env, ht, rfl⟩, rfl⟩
  · rintro ⟨k, hk, l, hl, rfl⟩
    obtain ⟨env, henv, rfl, rfl⟩ := exists_env_of_mem_values h hk hl
    exact ⟨env, henv, rfl⟩

theorem spans_values {t : Term} (hrange : ∀ v ∈ t.vars, ∃ n, n ∈ range v) (h : t.vars.Nodup) :
    (t.interval range).Spans (t.values range) := by
  induction t with
  | var v =>
    rw [values_var]
    exact Interval.spans_members (hrange v (List.mem_singleton_self v))
  | const n =>
    rw [values_const]
    exact Interval.spans_point n
  | neg t ih =>
    rw [values_neg]
    exact (ih hrange h).neg
  | bin op s t ihs iht =>
    rw [values_bin op h]
    obtain ⟨hs, ht, -⟩ := List.nodup_append.1 h
    have hspans := ihs (fun v hv => hrange v (List.mem_append_left _ hv)) hs
    have hspant := iht (fun v hv => hrange v (List.mem_append_right _ hv)) ht
    exact hspans.apply op hspant

end Term

namespace Formula

theorem reduce_cmp_eq_const {r : Rel} {s t : Term} {b : Bool} :
    (cmp r s t).reduce range = const b ↔
      r.decide? (s.interval range) (t.interval range) = some b := by
  rw [reduce]
  cases r.decide? (s.interval range) (t.interval range) <;> simp

theorem reduce_cmp_eq_const_iff {r : Rel} {s t : Term} {b : Bool} (hr : r ≠ .eq)
    (hrange : ∀ v ∈ (cmp r s t).vars, ∃ n, n ∈ range v) (h : (cmp r s t).vars.Nodup) :
    (cmp r s t).reduce range = const b ↔
      ∀ env : Var → Int, (∀ v ∈ (cmp r s t).vars, env v ∈ range v) →
        (cmp r s t).eval env = b := by
  obtain ⟨hs, ht, -⟩ := List.nodup_append.1 h
  have hspans := Term.spans_values (fun v hv => hrange v (List.mem_append_left _ hv)) hs
  have hspant := Term.spans_values (fun v hv => hrange v (List.mem_append_right _ hv)) ht
  rw [reduce_cmp_eq_const, Rel.decide?_of_spans hr hspans hspant]
  constructor
  · intro hall env henv
    exact hall (s.eval env) ⟨env, fun v hv => henv v (List.mem_append_left _ hv), rfl⟩
      (t.eval env) ⟨env, fun v hv => henv v (List.mem_append_right _ hv), rfl⟩
  · intro hall m hm n hn
    obtain ⟨env, henv, rfl, rfl⟩ := Term.exists_env_of_mem_values h hm hn
    exact hall env henv

end Formula

namespace Ranges

/-- The variables `vs` have values in their intervals; an empty interval is no restriction. -/
def AdmitsOn (rs : Ranges) (vs : List Var) (env : Var → Int) : Prop :=
  ∀ v ∈ vs, ¬ (rs.get v).IsEmpty → env v ∈ rs.get v

variable {rs : Ranges}

theorem admitsOn_iff {vs : List Var} {env : Var → Int} :
    rs.AdmitsOn vs env ↔ ∀ v ∈ vs, env v ∈ rs.effective v := by
  simp only [AdmitsOn, mem_effective]

theorem exists_mem_effective {v : Var} (h : (rs.get v).IsEmpty ∨ ∃ n, n ∈ rs.get v) :
    ∃ n, n ∈ rs.effective v := by
  rcases h with hempty | ⟨n, hn⟩
  · exact ⟨0, mem_effective.2 fun hne => absurd hempty hne⟩
  · exact ⟨n, mem_effective.2 fun _ => hn⟩

/-- **Folding is complete where each variable is read once.** Let every interval be empty or hold an
integer. Within a sufficient budget, an order comparison becomes a truth value exactly if it has
this truth value for all assignments in range; and the interval of a term is the least one around
the values that the term has for them. -/
theorem prune_exact_of_readOnce (rs : Ranges)
    (h : ∀ v, (rs.get v).IsEmpty ∨ ∃ n, n ∈ rs.get v) :
    (∀ (r : Rel) (s t : Term) (budget : Nat) (b : Bool), r ≠ .eq →
      (Formula.cmp r s t).vars.Nodup → (Formula.cmp r s t).size ≤ budget →
        ((rs.prune (.cmp r s t) budget).formula = .const b ↔
          ∀ env, rs.AdmitsOn (Formula.cmp r s t).vars env →
            (Formula.cmp r s t).eval env = b)) ∧
      ∀ t : Term, t.vars.Nodup →
        (rs.termInterval t).LeastAround {n | ∃ env, rs.AdmitsOn t.vars env ∧ t.eval env = n} := by
  simp only [admitsOn_iff]
  constructor
  · intro r s t budget b hr hvars hbudget
    have hprune : rs.prune (.cmp r s t) budget = _ := Formula.prune_of_cost_le hbudget
    rw [hprune]
    exact Formula.reduce_cmp_eq_const_iff hr (fun v _ => exists_mem_effective (h v)) hvars
  · intro t hvars
    exact (Term.spans_values (fun v _ => exists_mem_effective (h v)) hvars).leastAround

/-- With `x` in `[0, 4]`, `y` in `(-∞, -1]` and `z` squeezed empty, `x * y < 1 + 0 * z` is settled,
and `(-∞, 0]` is the least interval around the values of `x * y`. -/
theorem prune_exact_of_readOnce_half_line :
    let x : Var := ⟨0⟩
    let y : Var := ⟨1⟩
    let z : Var := ⟨2⟩
    let rs : Ranges :=
      ⟨[(x, ⟨.fin 0, .fin 4⟩), (y, ⟨.negInf, .fin (-1)⟩), (z, ⟨.fin 1, .fin 0⟩)]⟩
    let s : Term := .bin .mul (.var x) (.var y)
    let t : Term := .bin .add (.const 1) (.bin .mul (.const 0) (.var z))
    (∀ v, (rs.get v).IsEmpty ∨ ∃ n, n ∈ rs.get v) ∧
      (rs.prune (.cmp .lt s t) 9).formula = .const true ∧
      (∀ env, rs.AdmitsOn [x, y, z] env → (Formula.cmp .lt s t).eval env = true) ∧
      Interval.LeastAround ⟨.negInf, .fin 0⟩
        {n | ∃ env, rs.AdmitsOn [x, y] env ∧ s.eval env = n} := by
  intro x y z rs s t
  have h : ∀ v, (rs.get v).IsEmpty ∨ ∃ n, n ∈ rs.get v := by
    refine forall_get (p := fun i => i.IsEmpty ∨ ∃ n, n ∈ i)
      (Or.inr ⟨0, Interval.mem_top 0⟩) ?_
    rw [List.forall_mem_cons, List.forall_mem_cons, List.forall_mem_singleton]
    exact ⟨Or.inr ⟨0, by decide⟩, Or.inr ⟨-1, by decide⟩, Or.inl (by decide)⟩
  have hfold : (rs.prune (.cmp .lt s t) 9).formula = .const true := by decide
  obtain ⟨hexact, hleast⟩ := prune_exact_of_readOnce rs h
  exact ⟨h, hfold, (hexact .lt s t 9 true (by decide) (by decide) (by decide)).1 hfold,
    hleast s (by decide)⟩

end Ranges

end IntervalPruning
