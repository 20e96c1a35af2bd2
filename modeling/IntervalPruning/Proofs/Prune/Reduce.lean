import IntervalPruning.Prune.Basic

/-!
# IntervalPruning.Proofs.Prune.Reduce

Pruning taken apart into what it yields and what it costs, neither of which depends on the budget:

* `Term.reduce`, `Formula.reduce` — the rewritten tree;
* `Term.size`, `Formula.cost` — the number of nodes visited. All nodes of a term are visited; the
  arguments of a connective only up to the first that settles it.

`prune?_eq` says that the two together are the traversal: it succeeds exactly if the budget covers
the cost, yields the rewritten tree and leaves the rest of the budget. What is proved about pruning
is proved about `reduce` and `cost`, by recursion on the tree: `Term.reduce_congr` for terms, and
`Residue.put_cases` for one argument of a connective after the other.
-/

namespace IntervalPruning

/-- A result that costs `n` units of the budget. -/
def pay {α : Type} (n : Nat) (a : α) (budget : Nat) : Option (α × Nat) :=
  if n ≤ budget then some (a, budget - n) else none

section Pay

variable {α β : Type} {a : α} {b : β} {m n budget : Nat}

theorem pay_zero (a : α) (budget : Nat) : pay 0 a budget = some (a, budget) := rfl

theorem pay_none (hn : 0 < n) : pay n a 0 = none := by
  rw [pay, if_neg (by omega)]

theorem pay_succ (n : Nat) (a : α) (budget : Nat) : pay (1 + n) a (budget + 1) = pay n a budget := by
  unfold pay
  by_cases h : n ≤ budget
  · rw [if_pos h, if_pos (by omega), show budget + 1 - (1 + n) = budget - n by omega]
  · rw [if_neg h, if_neg (by omega)]

theorem isSome_pay : (pay n a budget).isSome ↔ n ≤ budget := by
  simp [pay]

theorem pay_eq_some_iff {c : α} {rest : Nat} :
    pay n a budget = some (c, rest) ↔ c = a ∧ budget = n + rest := by
  unfold pay
  by_cases h : n ≤ budget
  · rw [if_pos h, Option.some.injEq, Prod.mk.injEq, eq_comm (a := a)]
    exact and_congr_right fun _ => by omega
  · rw [if_neg h]
    refine iff_of_false nofun ?_
    rintro ⟨-, hrest⟩
    omega

/-- One step after the other costs both. -/
theorem pay_bind {next : α × Nat → Option (β × Nat)} (h : ∀ rest, next (a, rest) = pay n b rest)
    (budget : Nat) : (pay m a budget >>= next) = pay (m + n) b budget := by
  by_cases hm : m ≤ budget
  · show (pay m a budget).bind next = _
    rw [pay, if_pos hm, Option.bind_some, h]
    by_cases hn : n ≤ budget - m
    · rw [pay, pay, if_pos hn, if_pos (by omega), Nat.sub_sub]
    · rw [pay, pay, if_neg hn, if_neg (by omega)]
  · show (pay m a budget).bind next = _
    rw [pay, pay, if_neg hm, if_neg (by omega), Option.bind_none]

theorem pay_map {next : α × Nat → Option (β × Nat)} (h : ∀ rest, next (a, rest) = some (b, rest))
    (budget : Nat) : (pay m a budget >>= next) = pay m b budget :=
  pay_bind (n := 0) h budget

end Pay

namespace Term

/-- What is the same for a term and for the constant that it may have become. -/
theorem settle_congr {α : Type} {t : Term} {i : Interval} (F : Term → α)
    (h : ∀ n, i = .point n → F (const n) = F t) : F (settle t i).1 = F t := by
  unfold settle
  obtain hp | ⟨n, hp⟩ := Option.eq_none_or_eq_some i.point?
  · rw [hp, Option.map_none, Option.getD_none]
  · rw [hp, Option.map_some, Option.getD_some]
    exact h n (Interval.point?_eq_some_iff.1 hp)

theorem const?_settle {t : Term} (ht : t.const? = none) (i : Interval) :
    (settle t i).1.const? = i.point? := by
  unfold settle
  obtain hp | ⟨n, hp⟩ := Option.eq_none_or_eq_some i.point?
  · rw [hp, Option.map_none, Option.getD_none, ht]
  · rw [hp, Option.map_some, Option.getD_some]
    rfl

def reduce (range : Var → Interval) : Term → Term
  | var v => (settle (var v) (range v)).1
  | const n => const n
  | neg t => (settle (neg (t.reduce range)) (-t.interval range)).1
  | bin op s t =>
    (settle (bin op (s.reduce range) (t.reduce range))
      (op.apply (s.interval range) (t.interval range))).1

theorem const?_reduce (range : Var → Interval) (t : Term) :
    (t.reduce range).const? = (t.interval range).point? := by
  cases t with
  | var v => exact const?_settle rfl _
  | const n => exact (Interval.point?_eq_some_iff.2 rfl).symm
  | neg t => exact const?_settle rfl _
  | bin op s t => exact const?_settle rfl _

/-- The interval alone decides whether a term is folded, and to which constant. -/
theorem reduce_eq_const_iff {range : Var → Interval} {t : Term} {n : Int} :
    t.reduce range = const n ↔ t.interval range = .point n := by
  rw [← const?_eq_some_iff, const?_reduce, Interval.point?_eq_some_iff]

/-- Reducing is invisible to a function that is determined by its values on the operands, if it
does not tell the terms that are folded from the constants that they become. -/
theorem reduce_congr {α : Type} {range : Var → Interval} {t : Term} (F : Term → α)
    (hneg : ∀ {s s'}, F s = F s' → F (neg s) = F (neg s'))
    (hbin : ∀ {s s' u u'} op, F s = F s' → F u = F u' → F (bin op s u) = F (bin op s' u'))
    (hfold : ∀ s n, s.vars ⊆ t.vars → s.interval range = .point n → F (const n) = F s) :
    F (t.reduce range) = F t := by
  induction t with
  | var v => exact settle_congr F fun n hn => hfold (var v) n (List.Subset.refl _) hn
  | const n => rfl
  | neg t ih =>
    have hop := hneg (ih hfold)
    refine (settle_congr F fun n hn => ?_).trans hop
    rw [hop]
    exact hfold (neg t) n (List.Subset.refl _) hn
  | bin op s t ihs iht =>
    have hs := ihs fun u n hu => hfold u n (List.subset_append_of_subset_left _ hu)
    have ht := iht fun u n hu => hfold u n (List.subset_append_of_subset_right _ hu)
    have hop := hbin op hs ht
    refine (settle_congr F fun n hn => ?_).trans hop
    rw [hop]
    exact hfold (bin op s t) n (List.Subset.refl _) hn

theorem prune?_eq (range : Var → Interval) (t : Term) (budget : Nat) :
    t.prune? range budget = pay t.size (t.reduce range, t.interval range) budget := by
  induction t generalizing budget with
  | var v =>
    cases budget with
    | zero => rfl
    | succ budget => exact (pay_succ 0 _ budget).symm
  | const n =>
    cases budget with
    | zero => rfl
    | succ budget =>
      rw [prune?, settle, Interval.point?_eq_some_iff.2 rfl]
      exact (pay_succ 0 _ budget).symm
  | neg t ih =>
    cases budget with
    | zero => exact (pay_none (size_pos (neg t))).symm
    | succ budget =>
      rw [prune?, size, pay_succ, ih]
      apply pay_map
      intro _; rfl
  | bin op s t ihs iht =>
    cases budget with
    | zero => exact (pay_none (size_pos (bin op s t))).symm
    | succ budget =>
      rw [prune?, size, Nat.add_assoc, pay_succ, ihs]
      refine pay_bind (fun rest => ?_) budget
      simp only [iht]
      apply pay_map
      intro _; rfl

end Term

namespace Formula

mutual
def reduce (range : Var → Interval) : Formula → Formula
  | const b => const b
  | cmp r s t =>
    ((r.decide? (s.interval range) (t.interval range)).map const).getD
      (cmp r (s.reduce range) (t.reduce range))
  | not f => (f.reduce range).negate
  | conn c args => (reduceArgs range c args).toFormula c

def reduceArgs (range : Var → Interval) (c : Connective) : List Formula → Residue
  | [] => .kept []
  | f :: fs =>
    match (f.reduce range).const? with
    | some b => if b = c.absorbing then .absorbed else reduceArgs range c fs
    | none => (reduceArgs range c fs).cons (f.reduce range)
end

/-- A reduced argument put before what is left of the others. -/
def Residue.put (c : Connective) (f : Formula) (r : Residue) : Residue :=
  match f.const? with
  | some b => if b = c.absorbing then absorbed else r
  | none => r.cons f

theorem reduceArgs_cons (range : Var → Interval) (c : Connective) (f : Formula)
    (fs : List Formula) :
    reduceArgs range c (f :: fs) = (reduceArgs range c fs).put c (f.reduce range) := by
  rw [reduceArgs]
  rfl

theorem Residue.put_of_absorbing {c : Connective} {f : Formula} (h : f.const? = some c.absorbing)
    (r : Residue) : r.put c f = absorbed := by
  rw [put, h]
  exact if_pos rfl

/-- An argument settles the connective, or it is dropped, or it is kept. -/
theorem Residue.put_cases (c : Connective) (f : Formula) (r : Residue) :
    f = const c.absorbing ∧ r.put c f = absorbed ∨
      f = const (!c.absorbing) ∧ r.put c f = r ∨
      f.const? = none ∧ r.put c f = r.cons f := by
  unfold put
  obtain hc | ⟨b, hc⟩ := Option.eq_none_or_eq_some f.const?
  · simp only [hc, and_self, or_true]
  · have hf := const?_eq_some_iff.1 hc
    by_cases hb : b = c.absorbing
    · left
      rw [hc]
      exact ⟨hb ▸ hf, if_pos hb⟩
    · right; left
      rw [hc]
      exact ⟨Bool.eq_not_of_ne hb ▸ hf, if_neg hb⟩

mutual
def cost (range : Var → Interval) : Formula → Nat
  | const _ => 1
  | cmp _ s t => 1 + s.size + t.size
  | not f => 1 + f.cost range
  | conn c args => 1 + costArgs range c args

/-- The arguments behind one that settles the connective cost nothing. -/
def costArgs (range : Var → Interval) (c : Connective) : List Formula → Nat
  | [] => 0
  | f :: fs =>
    f.cost range +
      if (f.reduce range).const? = some c.absorbing then 0 else costArgs range c fs
end

theorem cost_pos (range : Var → Interval) (f : Formula) : 0 < f.cost range := by
  cases f <;> simp only [cost] <;> omega

theorem pruneArgs?_eq {range : Var → Interval} {c : Connective} {args : List Formula}
    (h : ∀ f ∈ args, ∀ budget, f.prune? range budget = pay (f.cost range) (f.reduce range) budget)
    (budget : Nat) :
    pruneArgs? range c args budget =
      pay (costArgs range c args) (reduceArgs range c args) budget := by
  induction args generalizing budget with
  | nil => rfl
  | cons f fs ih =>
    have hfs := ih fun g hg => h g (List.mem_cons_of_mem f hg)
    rw [pruneArgs?, costArgs, reduceArgs, h f List.mem_cons_self]
    refine pay_bind (fun rest => ?_) budget
    obtain hc | ⟨b, hc⟩ := Option.eq_none_or_eq_some (f.reduce range).const?
    · simp only [hc, hfs, reduceCtorEq, if_false]
      apply pay_map
      intro _; rfl
    · by_cases hb : b = c.absorbing
      · simp only [hc, hb, if_true, pay_zero]
      · simp only [hc, hb, hfs, Option.some.injEq, if_false]

theorem prune?_eq (range : Var → Interval) (f : Formula) (budget : Nat) :
    f.prune? range budget = pay (f.cost range) (f.reduce range) budget := by
  induction f generalizing budget with
  | const b =>
    cases budget with
    | zero => rfl
    | succ budget => exact (pay_succ 0 _ budget).symm
  | cmp r s t =>
    cases budget with
    | zero => exact (pay_none (cost_pos range (cmp r s t))).symm
    | succ budget =>
      rw [prune?, cost, Nat.add_assoc, pay_succ, Term.prune?_eq]
      refine pay_bind (fun rest => ?_) budget
      simp only [Term.prune?_eq]
      apply pay_map
      intro _; rfl
  | not f ih =>
    cases budget with
    | zero => exact (pay_none (cost_pos range (not f))).symm
    | succ budget =>
      rw [prune?, cost, pay_succ, ih]
      apply pay_map
      intro _; rfl
  | conn c args ih =>
    cases budget with
    | zero => exact (pay_none (cost_pos range (conn c args))).symm
    | succ budget =>
      rw [prune?, cost, pay_succ, pruneArgs?_eq ih]
      apply pay_map
      intro _; rfl

theorem prune_eq (range : Var → Interval) (f : Formula) (budget : Nat) :
    f.prune range budget =
      if f.cost range ≤ budget then ⟨f.reduce range, budget - f.cost range, false⟩
      else ⟨f, 0, true⟩ := by
  rw [prune, prune?_eq, pay]
  by_cases h : f.cost range ≤ budget
  · rw [if_pos h, if_pos h]
  · rw [if_neg h, if_neg h]

theorem prune_of_cost_le {range : Var → Interval} {f : Formula} {budget : Nat}
    (h : f.cost range ≤ budget) :
    f.prune range budget = ⟨f.reduce range, budget - f.cost range, false⟩ := by
  rw [prune_eq, if_pos h]

theorem prune_of_lt_cost {range : Var → Interval} {f : Formula} {budget : Nat}
    (h : budget < f.cost range) : f.prune range budget = ⟨f, 0, true⟩ := by
  rw [prune_eq, if_neg (Nat.not_le_of_gt h)]

/-- The outcome is the rewritten formula, which was paid for, or the formula itself. -/
theorem formula_prune_cases (range : Var → Interval) (f : Formula) (budget : Nat) :
    f.cost range ≤ budget ∧ (f.prune range budget).formula = f.reduce range ∨
      (f.prune range budget).formula = f := by
  rcases Nat.lt_or_ge budget (f.cost range) with hlt | hge
  · right
    rw [prune_of_lt_cost hlt]
  · left
    rw [prune_of_cost_le hge]
    exact ⟨hge, rfl⟩

theorem fellBack_prune_eq_false_iff {range : Var → Interval} {f : Formula} {budget : Nat} :
    (f.prune range budget).fellBack = false ↔ f.cost range ≤ budget := by
  rw [prune_eq]
  by_cases h : f.cost range ≤ budget
  · rw [if_pos h]
    exact iff_of_true rfl h
  · rw [if_neg h]
    exact iff_of_false Bool.true_eq_false.mp h

end Formula

end IntervalPruning
