import IntervalPruning.Proofs.Formula.Nodes
import IntervalPruning.Proofs.Prune.Reduce

/-!
# IntervalPruning.Proofs.Prune.Normal

What pruning leaves behind offers nothing more to prune. `Formula.Irreducible` says of a single node
that pruning has nothing to do there, `Formula.IsNormal` of a formula that it is a truth value, or
irreducible at every node.

Rewriting the operands of a term leaves its interval as it was (`Term.interval_reduce`), so what was
undecided while the operands were rewritten is undecided afterwards: `Term.settled_reduce` for
terms, `Formula.isNormal_reduce` for formulas. A connective keeps only arguments that are
irreducible at every node (`Formula.Residue.IsNormal`), and so does the formula that stands in
for a connective with a single argument left.
-/

namespace IntervalPruning

variable {range : Var → Interval}

namespace Term

/-- A node whose interval is a point is a constant. -/
def Settled (range : Var → Interval) (t : Term) : Prop :=
  ∀ u ∈ t.nodes, ∀ n, u.interval range = .point n → u = const n

theorem settled_const (range : Var → Interval) (n : Int) : (const n).Settled range := by
  intro u hu m hm
  simp only [nodes, List.mem_singleton] at hu
  subst hu
  rw [Interval.point_inj.1 hm]

theorem interval_reduce (range : Var → Interval) (t : Term) :
    (t.reduce range).interval range = t.interval range := by
  refine reduce_congr (interval range) (fun hs => ?_) (fun _ hs hu => ?_) fun s n _ hn => ?_
  · simp only [interval, hs]
  · simp only [interval, hs, hu]
  · rw [hn]
    rfl

/-- A term is folded, or its own interval is no point; below it nothing changes. -/
theorem settled_settle {t : Term} {i : Interval} (hi : t.interval range = i)
    (h : ∀ u ∈ t.nodes, u ≠ t → ∀ n, u.interval range = .point n → u = const n) :
    (settle t i).1.Settled range := by
  unfold settle
  obtain hp | ⟨n, hp⟩ := Option.eq_none_or_eq_some i.point?
  · intro u hu n hn
    rw [hp, Option.map_none, Option.getD_none] at hu
    by_cases hut : u = t
    · rw [hut, hi, ← Interval.point?_eq_some_iff, hp] at hn
      cases hn
    · exact h u hu hut n hn
  · rw [hp, Option.map_some, Option.getD_some]
    exact settled_const range n

theorem settled_reduce (range : Var → Interval) (t : Term) : (t.reduce range).Settled range := by
  induction t with
  | var v =>
    refine settled_settle rfl fun u hu hne => ?_
    exact absurd (List.mem_singleton.1 hu) hne
  | const n => exact settled_const range n
  | neg t ih =>
    refine settled_settle ?_ fun u hu hne => ?_
    · rw [interval, interval_reduce]
    · exact ih u ((List.mem_cons.1 hu).resolve_left hne)
  | bin op s t ihs iht =>
    refine settled_settle ?_ fun u hu hne => ?_
    · rw [interval, interval_reduce, interval_reduce]
    · rcases List.mem_append.1 ((List.mem_cons.1 hu).resolve_left hne) with hu | hu
      · exact ihs u hu
      · exact iht u hu

end Term

namespace Formula

/-- Pruning has nothing to do at this node: the terms are settled and their intervals give no
verdict, and a connective has arguments that it joins. -/
def Irreducible (range : Var → Interval) : Formula → Prop
  | const _ => False
  | cmp r s t => (s.Settled range ∧ t.Settled range) ∧
      r.decide? (s.interval range) (t.interval range) = none
  | not _ => True
  | conn _ args => 2 ≤ args.length

/-- Irreducible at every node. -/
def Open (range : Var → Interval) (f : Formula) : Prop := ∀ g ∈ f.nodes, g.Irreducible range

def IsNormal (range : Var → Interval) (f : Formula) : Prop := (∃ b, f = const b) ∨ f.Open range

theorem Open.const?_eq_none {f : Formula} (h : f.Open range) : f.const? = none := by
  have hself := h f (mem_nodes_self f)
  cases f with
  | const b => exact hself.elim
  | _ => rfl

theorem IsNormal.open_of_const? {f : Formula} (h : f.IsNormal range) (hc : f.const? = none) :
    f.Open range := by
  rcases h with ⟨b, rfl⟩ | h
  · cases hc
  · exact h

theorem open_conn {c : Connective} {args : List Formula} (hlen : 2 ≤ args.length)
    (h : ∀ f ∈ args, f.Open range) : (conn c args).Open range := by
  intro g hg
  rcases mem_nodes_conn.1 hg with rfl | ⟨f, hf, hg⟩
  · exact hlen
  · exact h f hf g hg

theorem isNormal_negate {f : Formula} (h : f.IsNormal range) : f.negate.IsNormal range := by
  rcases h with ⟨b, rfl⟩ | h
  · exact .inl ⟨!b, rfl⟩
  · right
    have hconst := h.const?_eq_none
    cases f with
    | const b => cases hconst
    | _ =>
      intro g hg
      rcases List.mem_cons.1 hg with rfl | hg
      · trivial
      · exact h g hg

/-- All arguments that are kept are irreducible at every node. -/
def Residue.IsNormal (range : Var → Interval) : Residue → Prop
  | absorbed => True
  | kept fs => ∀ f ∈ fs, f.Open range

theorem Residue.isNormal_put {c : Connective} {f : Formula} {r : Residue}
    (hf : f.IsNormal range) (hr : r.IsNormal range) : (r.put c f).IsNormal range := by
  obtain ⟨-, hp⟩ | ⟨-, hp⟩ | ⟨hc, hp⟩ := put_cases c f r
  · rw [hp]
    trivial
  · rw [hp]
    exact hr
  · rw [hp]
    cases r with
    | absorbed => trivial
    | kept fs => exact List.forall_mem_cons.2 ⟨hf.open_of_const? hc, hr⟩

theorem Residue.isNormal_toFormula {c : Connective} {r : Residue} (h : r.IsNormal range) :
    (r.toFormula c).IsNormal range := by
  cases r with
  | absorbed => exact .inl ⟨_, rfl⟩
  | kept fs =>
    match fs with
    | [] => exact .inl ⟨_, rfl⟩
    | [f] => exact .inr (h f (List.mem_singleton_self f))
    | f :: g :: fs => exact .inr (open_conn (by simp) h)

theorem isNormal_reduceArgs {c : Connective} {args : List Formula}
    (h : ∀ f ∈ args, (f.reduce range).IsNormal range) : (reduceArgs range c args).IsNormal range := by
  induction args with
  | nil =>
    intro f hf
    cases hf
  | cons f fs ih =>
    rw [reduceArgs_cons]
    exact Residue.isNormal_put (h f List.mem_cons_self)
      (ih fun g hg => h g (List.mem_cons_of_mem f hg))

theorem isNormal_reduce (range : Var → Interval) (f : Formula) :
    (f.reduce range).IsNormal range := by
  induction f with
  | const b => exact .inl ⟨b, rfl⟩
  | cmp r s t =>
    rw [reduce]
    cases hd : r.decide? (s.interval range) (t.interval range) with
    | some b => exact .inl ⟨b, rfl⟩
    | none =>
      right
      intro g hg
      obtain rfl := List.mem_singleton.1 hg
      refine ⟨⟨Term.settled_reduce range s, Term.settled_reduce range t⟩, ?_⟩
      rw [Term.interval_reduce, Term.interval_reduce, hd]
  | not f ih => exact isNormal_negate ih
  | conn c args ih => exact Residue.isNormal_toFormula (isNormal_reduceArgs ih)

end Formula

/-- **What is pruned is in normal form.** Unless pruning falls back, the outcome is a truth value or
holds none at any place. All its connectives have two arguments or more. In its comparisons, each
node of a term whose interval is a point is a constant, and the intervals of the two sides do not
settle the comparison. -/
theorem Ranges.prune_isNormal (rs : Ranges) (query : Formula) (budget : Nat)
    (h : (rs.prune query budget).fellBack = false) :
    let outcome := (rs.prune query budget).formula
    ((∃ b, outcome = .const b) ∨ ∀ b, .const b ∉ outcome.nodes) ∧
      (∀ c args, .conn c args ∈ outcome.nodes → 2 ≤ args.length) ∧
      ∀ r s t, .cmp r s t ∈ outcome.nodes →
        (∀ u ∈ s.nodes ++ t.nodes, ∀ n, rs.termInterval u = .point n → u = .const n) ∧
          r.decide? (rs.termInterval s) (rs.termInterval t) = none := by
  intro outcome
  have hprune : rs.prune query budget = _ :=
    Formula.prune_of_cost_le (Formula.fellBack_prune_eq_false_iff.1 h)
  have houtcome : outcome = query.reduce rs.effective := congrArg Pruned.formula hprune
  have hnormal : outcome.IsNormal rs.effective :=
    houtcome ▸ Formula.isNormal_reduce rs.effective query
  rcases hnormal with ⟨b, hb⟩ | hopen
  · rw [hb]
    refine ⟨.inl ⟨b, rfl⟩, ?_, ?_⟩
    · intro c args hmem
      simp [Formula.nodes] at hmem
    · intro r s t hmem
      simp [Formula.nodes] at hmem
  · refine ⟨.inr fun b hmem => hopen _ hmem, fun c args hmem => hopen _ hmem, ?_⟩
    intro r s t hmem
    obtain ⟨⟨hs, ht⟩, hd⟩ := hopen _ hmem
    exact ⟨List.forall_mem_append.2 ⟨hs, ht⟩, hd⟩

/-- With `x` in `[5, 5]` and `y` in `[0, 9]`: the connective is left with one argument and makes
place for it, in which `x` was replaced and `y * 0` folded, and a double negation stays. -/
theorem Ranges.prune_isNormal_collapsed :
    let x : Term := .var ⟨0⟩
    let y : Term := .var ⟨1⟩
    let rs : Ranges := ⟨[(⟨0⟩, ⟨.fin 5, .fin 5⟩), (⟨1⟩, ⟨.fin 0, .fin 9⟩)]⟩
    let compare : Formula := .cmp .lt (.bin .add y (.bin .mul y (.const 0))) x
    let query : Formula :=
      .conn .and [.not (.not compare), .conn .or [.cmp .le x y, .cmp .ge y (.const 0)]]
    let s : Term := .bin .add y (.const 0)
    let t : Term := .const 5
    let outcome := (rs.prune query 20).formula
    (rs.prune query 20).fellBack = false ∧ outcome = .not (.not (.cmp .lt s t)) ∧
      (∀ b, .const b ∉ outcome.nodes) ∧
      (∀ u ∈ s.nodes ++ t.nodes, ∀ n, rs.termInterval u = .point n → u = .const n) ∧
      Rel.lt.decide? (rs.termInterval s) (rs.termInterval t) = none := by
  intro x y rs compare query s t outcome
  have hfell : (rs.prune query 20).fellBack = false := by decide
  have houtcome : outcome = .not (.not (.cmp .lt s t)) := by decide
  obtain ⟨hconst, -, hcmp⟩ := prune_isNormal rs query 20 hfell
  refine ⟨hfell, houtcome, ?_, hcmp .lt s t ?_⟩
  · refine hconst.resolve_left ?_
    rintro ⟨b, hb⟩
    exact Formula.noConfusion (houtcome.symm.trans hb)
  · show _ ∈ outcome.nodes
    rw [houtcome]
    exact List.mem_cons_of_mem _ (List.mem_cons_of_mem _ (Formula.mem_nodes_self _))

end IntervalPruning
