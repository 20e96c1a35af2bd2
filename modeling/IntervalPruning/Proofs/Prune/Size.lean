import IntervalPruning.Proofs.Prune.Reduce

/-!
# IntervalPruning.Proofs.Prune.Size

What pruning yields is no larger than what it visits, and it visits no node twice:

    (f.reduce range).size ≤ f.cost range ≤ f.size

Each rewritten node was visited. The arguments that a connective leaves unread are not in the
outcome either, because the connective itself has become a constant then. Only a connective leaves
anything unread, so without one the cost is the size (`Formula.cost_eq_size`).

`Ranges.prune_threshold` puts this in terms of the budget: the cost is the least budget that is
enough, and more than that changes nothing but what is left over.
-/

namespace IntervalPruning

namespace Term

theorem size_settle_le (t : Term) (i : Interval) : (settle t i).1.size ≤ t.size := by
  unfold settle
  cases i.point? with
  | some n => exact size_pos t
  | none => exact Nat.le_refl _

theorem size_reduce_le (range : Var → Interval) (t : Term) : (t.reduce range).size ≤ t.size := by
  induction t with
  | var v => exact size_settle_le _ _
  | const n => exact Nat.le_refl _
  | neg t ih =>
    calc ((neg t).reduce range).size ≤ (neg (t.reduce range)).size := size_settle_le _ _
      _ ≤ (neg t).size := by simp only [size]; omega
  | bin op s t ihs iht =>
    calc ((bin op s t).reduce range).size ≤ (bin op (s.reduce range) (t.reduce range)).size :=
          size_settle_le _ _
      _ ≤ (bin op s t).size := by simp only [size]; omega

end Term

namespace Formula

theorem size_negate_le (f : Formula) : f.negate.size ≤ 1 + f.size := by
  cases f <;> simp [negate, size]

/-- The number of nodes that a residue keeps. -/
def Residue.size : Residue → Nat
  | absorbed => 0
  | kept fs => sizeArgs fs

theorem Residue.size_put_le (c : Connective) (f : Formula) (r : Residue) :
    (r.put c f).size ≤ f.size + r.size := by
  obtain ⟨-, hp⟩ | ⟨-, hp⟩ | ⟨-, hp⟩ := put_cases c f r
  · rw [hp]
    exact Nat.zero_le _
  · rw [hp]
    exact Nat.le_add_left _ _
  · rw [hp]
    cases r with
    | absorbed => exact Nat.zero_le _
    | kept fs => exact Nat.le_refl _

theorem Residue.size_toFormula_le (c : Connective) (r : Residue) :
    (r.toFormula c).size ≤ 1 + r.size := by
  cases r with
  | absorbed => exact Nat.le_refl _
  | kept fs =>
    match fs with
    | [] => exact Nat.le_refl _
    | [f] => simp only [toFormula, size, sizeArgs]; omega
    | _ :: _ :: _ => exact Nat.le_refl _

theorem size_reduceArgs_le {range : Var → Interval} {c : Connective} {args : List Formula}
    (h : ∀ f ∈ args, (f.reduce range).size ≤ f.cost range) :
    (reduceArgs range c args).size ≤ costArgs range c args := by
  induction args with
  | nil => exact Nat.le_refl _
  | cons f fs ih =>
    have hf := h f List.mem_cons_self
    have hfs := ih fun g hg => h g (List.mem_cons_of_mem f hg)
    rw [reduceArgs_cons, costArgs]
    split
    · rename_i habs
      rw [Residue.put_of_absorbing habs]
      exact Nat.zero_le _
    · have hput := Residue.size_put_le c (f.reduce range) (reduceArgs range c fs)
      omega

theorem size_reduce_le_cost (range : Var → Interval) (f : Formula) :
    (f.reduce range).size ≤ f.cost range := by
  induction f with
  | const b => exact Nat.le_refl _
  | cmp r s t =>
    rw [reduce, cost]
    cases r.decide? (s.interval range) (t.interval range) with
    | some b => simp only [Option.map_some, Option.getD_some, size]; omega
    | none =>
      have hs := Term.size_reduce_le range s
      have ht := Term.size_reduce_le range t
      simp only [Option.map_none, Option.getD_none, size]
      omega
  | not f ih =>
    calc ((not f).reduce range).size ≤ 1 + (f.reduce range).size := size_negate_le _
      _ ≤ (not f).cost range := by rw [cost]; omega
  | conn c args ih =>
    calc ((conn c args).reduce range).size ≤ 1 + (reduceArgs range c args).size :=
          Residue.size_toFormula_le c _
      _ ≤ (conn c args).cost range := by
          have hargs := size_reduceArgs_le (c := c) ih
          rw [cost]
          omega

theorem costArgs_le_sizeArgs {range : Var → Interval} {c : Connective} {args : List Formula}
    (h : ∀ f ∈ args, f.cost range ≤ f.size) : costArgs range c args ≤ sizeArgs args := by
  induction args with
  | nil => exact Nat.le_refl _
  | cons f fs ih =>
    have hf := h f List.mem_cons_self
    have hfs := ih fun g hg => h g (List.mem_cons_of_mem f hg)
    rw [costArgs, sizeArgs]
    split <;> omega

theorem cost_le_size (range : Var → Interval) (f : Formula) : f.cost range ≤ f.size := by
  induction f with
  | const b => exact Nat.le_refl _
  | cmp r s t => exact Nat.le_refl _
  | not f ih => exact Nat.add_le_add_left ih 1
  | conn c args ih => exact Nat.add_le_add_left (costArgs_le_sizeArgs ih) 1

/-- Neither `and` nor `or` occurs. -/
def connectiveFree : Formula → Bool
  | const _ => true
  | cmp _ _ _ => true
  | not f => f.connectiveFree
  | conn _ _ => false

theorem cost_eq_size {range : Var → Interval} {f : Formula} (h : f.connectiveFree = true) :
    f.cost range = f.size := by
  induction f with
  | const b => rfl
  | cmp r s t => rfl
  | not f ih => rw [cost, size, ih h]
  | conn c args => cases h

end Formula

/-- **The budget is an exact threshold.** From the cost `n` of the query on, the outcome is its rewritten
form `p`, the same for every budget, and `n` units are used; below it the query comes back as it was,
and nothing is left. The cost lies between the sizes of the two, and without a connective it is that of
the query. So no more is used than was there, a budget of the size of the query is enough, and nothing
ever grows. -/
theorem Ranges.prune_threshold (rs : Ranges) (query : Formula) :
    let n := query.cost rs.effective
    let p := query.reduce rs.effective
    ((p.size ≤ n ∧ n ≤ query.size ∧ 1 ≤ n ∧ (query.connectiveFree = true → n = query.size)) ∧
      ∀ budget,
        (n ≤ budget → rs.prune query budget = ⟨p, budget - n, false⟩) ∧
        (budget < n → rs.prune query budget = ⟨query, 0, true⟩)) ∧
    ∀ budget,
      (rs.prune query budget).remaining ≤ budget ∧
      (query.size ≤ budget → (rs.prune query budget).fellBack = false) ∧
      (rs.prune query budget).formula.size ≤ query.size := by
  intro n p
  have hreduce : p.size ≤ n := query.size_reduce_le_cost rs.effective
  have hcost : n ≤ query.size := query.cost_le_size rs.effective
  have hpos : 1 ≤ n := query.cost_pos rs.effective
  refine ⟨⟨⟨hreduce, hcost, hpos, Formula.cost_eq_size⟩,
    fun budget => ⟨Formula.prune_of_cost_le, Formula.prune_of_lt_cost⟩⟩, fun budget => ?_⟩
  rcases Nat.lt_or_ge budget n with hlt | hge
  · have hprune : rs.prune query budget = _ := Formula.prune_of_lt_cost hlt
    rw [hprune]
    exact ⟨Nat.zero_le _, fun hsize => by omega, Nat.le_refl _⟩
  · have hprune : rs.prune query budget = _ := Formula.prune_of_cost_le hge
    rw [hprune]
    exact ⟨Nat.sub_le _ _, fun _ => rfl, Nat.le_trans hreduce hcost⟩

/-- Of the seven nodes of a conjunction four are paid for, because `1 < 0` ends the reading of the
arguments. In the other order, or without the conjunction, nothing is left unread. -/
theorem Ranges.prune_threshold_early_stop :
    let x : Var := ⟨0⟩
    let rs : Ranges := ⟨[(x, ⟨.fin 2, .posInf⟩)]⟩
    let never : Formula := .cmp .lt (.const 1) (.const 0)
    let undecided : Formula := .cmp .eq (.var x) (.const 2)
    let query : Formula := .conn .and [never, undecided]
    let swapped : Formula := .conn .and [undecided, never]
    query.size = 7 ∧ query.cost rs.effective = 4 ∧ query.reduce rs.effective = .const false ∧
      (3 < query.cost rs.effective ∧ rs.prune query 3 = ⟨query, 0, true⟩) ∧
      (query.cost rs.effective ≤ 6 ∧ rs.prune query 6 = ⟨.const false, 2, false⟩) ∧
      (swapped.cost rs.effective = 7 ∧ rs.prune swapped 6 = ⟨swapped, 0, true⟩) ∧
      (query.size ≤ 7 ∧ (rs.prune query 7).fellBack = false) ∧
      (undecided.connectiveFree = true ∧ undecided.cost rs.effective = undecided.size) := by
  intro x rs never undecided query swapped
  obtain ⟨⟨-, hquery⟩, hbudget⟩ := Ranges.prune_threshold rs query
  obtain ⟨⟨-, hswapped⟩, -⟩ := Ranges.prune_threshold rs swapped
  obtain ⟨⟨⟨-, -, -, hopen⟩, -⟩, -⟩ := Ranges.prune_threshold rs undecided
  have hbelow : 3 < query.cost rs.effective := by decide
  have habove : query.cost rs.effective ≤ 6 := by decide
  have hsize : query.size ≤ 7 := by decide
  exact ⟨by decide, by decide, by decide, ⟨hbelow, (hquery 3).2 hbelow⟩,
    ⟨habove, (hquery 6).1 habove⟩, ⟨by decide, (hswapped 6).2 (by decide)⟩,
    ⟨hsize, (hbudget 7).2.1 hsize⟩, ⟨by decide, hopen (by decide)⟩⟩

end IntervalPruning
