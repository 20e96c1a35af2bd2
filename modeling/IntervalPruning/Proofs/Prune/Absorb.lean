import IntervalPruning.Proofs.Interval.Nested
import IntervalPruning.Proofs.Prune.Size
import IntervalPruning.Proofs.Ranges

/-!
# IntervalPruning.Proofs.Prune.Absorb

Pruning once more with narrower intervals makes the first pass superfluous: the outcome is the one
for the query itself (`Term.interval_reduce_reduce`, `Formula.reduce_reduce`). Whatever the wide
intervals folded, the narrow ones fold to the same constant, and whatever the wide ones kept is
rebuilt. The second pass reads no more nodes than the first one did (`Formula.cost_le_cost`).

`Ranges.prune_absorbs` says it of ranges. All variables need a value there, since an interval
without one is read as no knowledge, and narrowing an interval until it is empty forgets it.
-/

namespace IntervalPruning

open IntervalPruning.Interval (Nested)

variable {env : Var → Int} {range narrow wide : Var → Interval}

namespace Term

/-- Both at once: how a term is reduced depends on the intervals of its operands. -/
theorem interval_reduce_reduce {t : Term}
    (h : ∀ v ∈ t.vars, Nested (env v) (narrow v) (wide v)) :
    (t.reduce wide).interval narrow = t.interval narrow ∧
      (t.reduce wide).reduce narrow = t.reduce narrow := by
  refine Prod.mk.inj (reduce_congr (fun u => (u.interval narrow, u.reduce narrow))
    (fun hs => ?_) (fun _ hs hu => ?_) fun s n hs hn => ?_)
  · obtain ⟨hi, hr⟩ := Prod.mk.inj hs
    simp only [interval, reduce, hi, hr]
  · obtain ⟨hi, hr⟩ := Prod.mk.inj hs
    obtain ⟨hj, hr'⟩ := Prod.mk.inj hu
    simp only [interval, reduce, hi, hj, hr, hr']
  · have hpoint := (nested_interval fun v hv => h v (hs hv)).eq_point hn
    simp only [hpoint, reduce_eq_const_iff.2 hpoint]
    rfl

end Term

namespace Formula

theorem reduce_negate (range : Var → Interval) (f : Formula) :
    f.negate.reduce range = (f.reduce range).negate := by
  cases f <;> rfl

/-- The rest of a connective, reduced in its turn. -/
def Residue.reduce (range : Var → Interval) (c : Connective) : Residue → Residue
  | absorbed => absorbed
  | kept fs => reduceArgs range c fs

theorem Residue.put_absorbed (c : Connective) (f : Formula) : absorbed.put c f = absorbed := by
  obtain ⟨-, hp⟩ | ⟨-, hp⟩ | ⟨-, hp⟩ := put_cases c f absorbed
  all_goals exact hp

theorem Residue.put_neutral (c : Connective) (r : Residue) : r.put c (const !c.absorbing) = r := by
  cases c <;> rfl

theorem Residue.reduce_put (range : Var → Interval) (c : Connective) (f : Formula) (r : Residue) :
    (r.put c f).reduce range c = (r.reduce range c).put c (f.reduce range) := by
  obtain ⟨hf, hp⟩ | ⟨hf, hp⟩ | ⟨-, hp⟩ := put_cases c f r
  · rw [hp, hf]
    exact (put_of_absorbing rfl _).symm
  · rw [hp, hf]
    exact (put_neutral c _).symm
  · rw [hp]
    cases r with
    | absorbed => exact (put_absorbed c _).symm
    | kept fs => exact reduceArgs_cons range c f fs

theorem Residue.reduce_toFormula (range : Var → Interval) (c : Connective) (r : Residue) :
    (r.toFormula c).reduce range = (r.reduce range c).toFormula c := by
  cases r with
  | absorbed => rfl
  | kept fs =>
    match fs with
    | [] => rfl
    | [f] =>
      show f.reduce range = (reduceArgs range c [f]).toFormula c
      rw [reduceArgs_cons]
      obtain ⟨hf, hp⟩ | ⟨hf, hp⟩ | ⟨-, hp⟩ := put_cases c (f.reduce range) (reduceArgs range c [])
      · rw [hp, hf]
        rfl
      · rw [hp, hf]
        rfl
      · rw [hp]
        rfl
    | _ :: _ :: _ => rfl

theorem reduce_reduceArgs {c : Connective} {args : List Formula}
    (h : ∀ f ∈ args, (f.reduce wide).reduce narrow = f.reduce narrow) :
    (reduceArgs wide c args).reduce narrow c = reduceArgs narrow c args := by
  induction args with
  | nil => rfl
  | cons f fs ih =>
    rw [reduceArgs_cons, reduceArgs_cons, Residue.reduce_put, h f List.mem_cons_self,
      ih fun g hg => h g (List.mem_cons_of_mem f hg)]

theorem reduce_reduce {f : Formula} (h : ∀ v ∈ f.vars, Nested (env v) (narrow v) (wide v)) :
    (f.reduce wide).reduce narrow = f.reduce narrow := by
  induction f with
  | const b => rfl
  | cmp r s t =>
    have hs : ∀ v ∈ s.vars, Nested (env v) (narrow v) (wide v) :=
      fun v hv => h v (List.mem_append_left _ hv)
    have ht : ∀ v ∈ t.vars, Nested (env v) (narrow v) (wide v) :=
      fun v hv => h v (List.mem_append_right _ hv)
    rw [reduce]
    obtain hd | ⟨b, hd⟩ := Option.eq_none_or_eq_some (r.decide? (s.interval wide) (t.interval wide))
    · obtain ⟨hsi, hsr⟩ := Term.interval_reduce_reduce hs
      obtain ⟨hti, htr⟩ := Term.interval_reduce_reduce ht
      rw [hd, Option.map_none, Option.getD_none, reduce, reduce, hsi, hti, hsr, htr]
    · have hd' := Rel.decide?_of_nested (Term.nested_interval hs) (Term.nested_interval ht) hd
      rw [hd, Option.map_some, Option.getD_some, reduce, reduce, hd', Option.map_some,
        Option.getD_some]
  | not f ih => rw [reduce, reduce_negate, ih h, reduce]
  | conn c args ih =>
    rw [reduce, Residue.reduce_toFormula, reduce]
    have hargs := reduce_reduceArgs (c := c) fun f hf =>
      ih f hf fun v hv => h v (mem_vars_of_mem_args hf hv)
    rw [hargs]

/-- An argument that settled the connective before settles it again, so that no more is read. -/
theorem costArgs_le_costArgs {c : Connective} {args : List Formula}
    (h : ∀ f ∈ args, f.cost narrow ≤ f.cost wide ∧
      (f.reduce wide).reduce narrow = f.reduce narrow) :
    costArgs narrow c args ≤ costArgs wide c args := by
  induction args with
  | nil => exact Nat.le_refl _
  | cons f fs ih =>
    obtain ⟨hcost, hreduce⟩ := h f List.mem_cons_self
    have hfs := ih fun g hg => h g (List.mem_cons_of_mem f hg)
    rw [costArgs, costArgs]
    by_cases habs : (f.reduce wide).const? = some c.absorbing
    · rw [const?_eq_some_iff.1 habs] at hreduce
      have habs' : (f.reduce narrow).const? = some c.absorbing := hreduce ▸ rfl
      rw [if_pos habs, if_pos habs']
      exact hcost
    · rw [if_neg habs]
      split <;> omega

theorem cost_le_cost {f : Formula} (h : ∀ v ∈ f.vars, Nested (env v) (narrow v) (wide v)) :
    f.cost narrow ≤ f.cost wide := by
  induction f with
  | const b => exact Nat.le_refl _
  | cmp r s t => exact Nat.le_refl _
  | not f ih => exact Nat.add_le_add_left (ih h) 1
  | conn c args ih =>
    refine Nat.add_le_add_left (costArgs_le_costArgs fun f hf => ?_) 1
    have hvars : ∀ v ∈ f.vars, Nested (env v) (narrow v) (wide v) :=
      fun v hv => h v (mem_vars_of_mem_args hf hv)
    exact ⟨ih f hf hvars, reduce_reduce hvars⟩

end Formula

namespace Ranges

variable {rs rs' : Ranges}

/-- Values in the narrower ranges, one for each variable. -/
theorem exists_nested_effective {vs : List Var}
    (h : ∀ v ∈ vs, (∃ n, n ∈ rs'.get v) ∧ rs'.get v ⊆ rs.get v) :
    ∃ env : Var → Int, ∀ v ∈ vs, Nested (env v) (rs'.effective v) (rs.effective v) := by
  have hvalue : ∀ v, ∃ n, v ∈ vs → Nested n (rs'.get v) (rs.get v) := by
    intro v
    by_cases hv : v ∈ vs
    · obtain ⟨⟨n, hn⟩, hsub⟩ := h v hv
      exact ⟨n, fun _ => Interval.nested_iff.2 ⟨hn, hsub⟩⟩
    · exact ⟨0, fun hv' => absurd hv' hv⟩
  obtain ⟨env, henv⟩ := Classical.axiomOfChoice hvalue
  refine ⟨env, fun v hv => ?_⟩
  rw [effective_of_mem (henv v hv).mem, effective_of_mem (henv v hv).mem_of_nested]
  exact henv v hv

/-- **What is known later absorbs what was pruned before.** Let every variable of the query keep a
value while its interval narrows. Where pruning succeeded before, it succeeds after, both for the
query and for the outcome from before; the two new outcomes are the same, and no more of the budget
is used. In particular a truth value found before is found again. -/
theorem prune_absorbs (rs rs' : Ranges) (query : Formula) (budget : Nat)
    (h : ∀ v ∈ query.freeVars, (∃ n, n ∈ rs'.get v) ∧ rs'.get v ⊆ rs.get v)
    (hb : (rs.prune query budget).fellBack = false) :
    let before := rs.prune query budget
    let after := rs'.prune query budget
    let again := rs'.prune before.formula budget
    (after.fellBack = false ∧ before.remaining ≤ after.remaining) ∧
      (again.fellBack = false ∧ again.formula = after.formula) ∧
      ∀ b, before.formula = .const b → after.formula = .const b := by
  obtain ⟨env, henv⟩ := exists_nested_effective h
  have hnested : ∀ v ∈ query.vars, Nested (env v) (rs'.effective v) (rs.effective v) :=
    fun v hv => henv v (Formula.mem_freeVars.2 hv)
  have hreduce := Formula.reduce_reduce hnested
  have hcost := Formula.fellBack_prune_eq_false_iff.1 hb
  have hcost' := Formula.cost_le_cost hnested
  have hrest : (query.reduce rs.effective).cost rs'.effective ≤ query.cost rs.effective :=
    (Formula.cost_le_size _ _).trans (Formula.size_reduce_le_cost _ _)
  intro before after again
  have hbefore : before = _ := Formula.prune_of_cost_le hcost
  have hafter : after = _ := Formula.prune_of_cost_le (hcost'.trans hcost)
  have hagain : again = _ := (congrArg (rs'.prune ·.formula budget) hbefore).trans
    (Formula.prune_of_cost_le (hrest.trans hcost))
  rw [hagain, hafter, hbefore]
  refine ⟨⟨rfl, Nat.sub_le_sub_left hcost' budget⟩, ⟨rfl, hreduce⟩, fun b hconst => ?_⟩
  calc query.reduce rs'.effective = (query.reduce rs.effective).reduce rs'.effective :=
        hreduce.symm
    _ = (Formula.const b).reduce rs'.effective := congrArg _ hconst
    _ = .const b := rfl

/-- Narrowing `y` decides `x < y`, which was left over before; what is left over for `z` is the
same. -/
theorem prune_absorbs_narrowed :
    let x : Var := ⟨0⟩
    let y : Var := ⟨1⟩
    let z : Var := ⟨2⟩
    let rs : Ranges := ⟨[(x, ⟨.fin 0, .fin 9⟩), (y, ⟨.fin 0, .posInf⟩)]⟩
    let rs' : Ranges := ⟨[(x, ⟨.fin 0, .fin 4⟩), (y, ⟨.fin 5, .fin 7⟩)]⟩
    let rest : Formula := .cmp .eq (.bin .mul (.var x) (.var y)) (.var z)
    let query : Formula := .conn .and
      [.cmp .ge (.bin .add (.var x) (.var y)) (.const 0), rest, .cmp .lt (.var x) (.var y)]
    let before := rs.prune query 20
    let after := rs'.prune query 20
    let again := rs'.prune before.formula 20
    before.formula = .conn .and [rest, .cmp .lt (.var x) (.var y)] ∧ after.formula = rest ∧
      (again.fellBack = false ∧ again.formula = after.formula) := by
  intro x y z rs rs' rest query before after again
  have hx : (∃ n, n ∈ rs'.get x) ∧ rs'.get x ⊆ rs.get x := ⟨⟨0, by decide⟩, by decide⟩
  have hy : (∃ n, n ∈ rs'.get y) ∧ rs'.get y ⊆ rs.get y := ⟨⟨5, by decide⟩, by decide⟩
  have hz : (∃ n, n ∈ rs'.get z) ∧ rs'.get z ⊆ rs.get z := ⟨⟨0, by decide⟩, by decide⟩
  have h : ∀ v ∈ query.freeVars, (∃ n, n ∈ rs'.get v) ∧ rs'.get v ⊆ rs.get v := by
    have hvars : query.freeVars = [x, y, z] := by decide
    rw [hvars]
    simp only [List.forall_mem_cons]
    exact ⟨hx, hy, hz, nofun⟩
  exact ⟨by decide, by decide, (prune_absorbs rs rs' query 20 h (by decide)).2.1⟩

end Ranges

end IntervalPruning
