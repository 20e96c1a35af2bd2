import IntervalPruning.Proofs.Formula.Census
import IntervalPruning.Proofs.Formula.Nodes
import IntervalPruning.Proofs.Prune.Reduce

/-!
# IntervalPruning.Proofs.Prune.Variables

Pruning reads the intervals of the variables that occur, and of no others (`Formula.prune?_congr`), and
what it leaves behind has no new variable. It even keeps the places as they follow each other from left
to right: a place may be taken away with the term, the comparison or the argument around it, but none
is moved or added (`Formula.vars_reduce_sublist`).

`Formula.freeVars_determine` says what the free variables of a formula are, and what depends on
nothing else.
-/

namespace IntervalPruning

variable {range range' : Var → Interval}

/-! ## Places that are left -/

namespace Term

theorem vars_settle_sublist (t : Term) (i : Interval) : (settle t i).1.vars.Sublist t.vars := by
  unfold settle
  cases i.point? with
  | some n => exact List.nil_sublist _
  | none => exact List.Sublist.refl _

theorem vars_reduce_sublist (range : Var → Interval) (t : Term) :
    (t.reduce range).vars.Sublist t.vars := by
  induction t with
  | var v => exact vars_settle_sublist _ _
  | const n => exact List.Sublist.refl _
  | neg t ih => exact (vars_settle_sublist _ _).trans ih
  | bin op s t ihs iht => exact (vars_settle_sublist _ _).trans (ihs.append iht)

end Term

namespace Formula

theorem vars_negate (f : Formula) : f.negate.vars = f.vars := by
  cases f <;> rfl

/-- The places in the arguments that are kept. -/
def Residue.vars : Residue → List Var
  | absorbed => []
  | kept fs => varsArgs fs

theorem Residue.vars_put_sublist (c : Connective) (f : Formula) (r : Residue) :
    (r.put c f).vars.Sublist (f.vars ++ r.vars) := by
  obtain ⟨-, hp⟩ | ⟨-, hp⟩ | ⟨-, hp⟩ := put_cases c f r
  · rw [hp]
    exact List.nil_sublist _
  · rw [hp]
    exact List.sublist_append_right _ _
  · rw [hp]
    cases r with
    | absorbed => exact List.nil_sublist _
    | kept fs => exact List.Sublist.refl _

theorem Residue.vars_toFormula (c : Connective) (r : Residue) : (r.toFormula c).vars = r.vars := by
  cases r with
  | absorbed => rfl
  | kept fs =>
    match fs with
    | [] => rfl
    | [f] => exact (List.append_nil f.vars).symm
    | _ :: _ :: _ => rfl

theorem vars_reduceArgs_sublist {c : Connective} {args : List Formula}
    (h : ∀ f ∈ args, (f.reduce range).vars.Sublist f.vars) :
    (reduceArgs range c args).vars.Sublist (varsArgs args) := by
  induction args with
  | nil => exact List.Sublist.refl _
  | cons f fs ih =>
    have hf := h f List.mem_cons_self
    have hfs := ih fun g hg => h g (List.mem_cons_of_mem f hg)
    rw [reduceArgs_cons]
    exact (Residue.vars_put_sublist c _ _).trans (hf.append hfs)

theorem vars_reduce_sublist (range : Var → Interval) (f : Formula) :
    (f.reduce range).vars.Sublist f.vars := by
  induction f with
  | const b => exact List.Sublist.refl _
  | cmp r s t =>
    rw [reduce]
    cases r.decide? (s.interval range) (t.interval range) with
    | some b => exact List.nil_sublist _
    | none => exact (Term.vars_reduce_sublist range s).append (Term.vars_reduce_sublist range t)
  | not f ih =>
    rw [reduce, vars_negate]
    exact ih
  | conn c args ih =>
    rw [reduce, Residue.vars_toFormula]
    exact vars_reduceArgs_sublist ih

theorem vars_prune_sublist (range : Var → Interval) (f : Formula) (budget : Nat) :
    (f.prune range budget).formula.vars.Sublist f.vars := by
  obtain ⟨-, hf⟩ | hf := formula_prune_cases range f budget
  · rw [hf]
    exact vars_reduce_sublist range f
  · rw [hf]

end Formula

/-! ## Intervals that are read -/

theorem Term.prune?_congr {t : Term} (h : ∀ v ∈ t.vars, range v = range' v) (budget : Nat) :
    t.prune? range budget = t.prune? range' budget := by
  induction t generalizing budget with
  | var v =>
    cases budget with
    | zero => rfl
    | succ budget => rw [prune?, prune?, h v (List.mem_singleton_self v)]
  | const n => cases budget <;> rfl
  | neg t ih =>
    cases budget with
    | zero => rfl
    | succ budget => rw [prune?, prune?, ih h]
  | bin op s t ihs iht =>
    have hs := ihs fun v hv => h v (List.mem_append_left _ hv)
    have ht := iht fun v hv => h v (List.mem_append_right _ hv)
    cases budget with
    | zero => rfl
    | succ budget => simp only [prune?, hs, ht]

namespace Formula

theorem pruneArgs?_congr {c : Connective} {args : List Formula}
    (h : ∀ f ∈ args, ∀ budget, f.prune? range budget = f.prune? range' budget) (budget : Nat) :
    pruneArgs? range c args budget = pruneArgs? range' c args budget := by
  induction args generalizing budget with
  | nil => rfl
  | cons f fs ih =>
    have hf := h f List.mem_cons_self
    have hfs := ih fun g hg => h g (List.mem_cons_of_mem f hg)
    simp only [pruneArgs?, hf, hfs]

theorem prune?_congr {f : Formula} (h : ∀ v ∈ f.vars, range v = range' v) (budget : Nat) :
    f.prune? range budget = f.prune? range' budget := by
  induction f generalizing budget with
  | const b => cases budget <;> rfl
  | cmp r s t =>
    have hs := Term.prune?_congr fun v hv => h v (List.mem_append_left t.vars hv)
    have ht := Term.prune?_congr fun v hv => h v (List.mem_append_right s.vars hv)
    cases budget with
    | zero => rfl
    | succ budget => simp only [prune?, hs, ht]
  | not f ih =>
    cases budget with
    | zero => rfl
    | succ budget => rw [prune?, prune?, ih h]
  | conn c args ih =>
    have hargs := pruneArgs?_congr (c := c) fun f hf =>
      ih f hf fun v hv => h v (mem_vars_of_mem_args hf hv)
    cases budget with
    | zero => rfl
    | succ budget => rw [prune?, prune?, hargs]

theorem prune_congr {f : Formula} (h : ∀ v ∈ f.vars, range v = range' v) (budget : Nat) :
    f.prune range budget = f.prune range' budget := by
  rw [prune, prune, prune?_congr h]

/-- **The free variables are all that matters.** They are the variables that stand at some place of the
formula, each once and in the order of first occurrence; one walk through the tree lists them. The
truth value depends on their values only, and the outcome of pruning, with what is left of the budget
and whether it fell back, on their intervals only. No other variable occurs in the outcome. -/
theorem freeVars_determine (f : Formula) :
    (f.freeVars = (f.collect .empty).order ∧ f.freeVars.Nodup ∧
        (∀ v, v ∈ f.freeVars ↔ f.Mentions v) ∧
        f.freeVars.Pairwise fun v w => f.vars.idxOf v < f.vars.idxOf w) ∧
      (∀ env env' : Var → Int, (∀ v ∈ f.freeVars, env v = env' v) → f.eval env = f.eval env') ∧
      (∀ (rs rs' : Ranges) (budget : Nat), (∀ v ∈ f.freeVars, rs.get v = rs'.get v) →
        rs.prune f budget = rs'.prune f budget) ∧
      ∀ (rs : Ranges) (budget : Nat), ∀ v ∈ (rs.prune f budget).formula.freeVars,
        v ∈ f.freeVars := by
  refine ⟨⟨f.order_collect.symm, nodup_eraseDups _, ?_, pairwise_idxOf_eraseDups _⟩, ?_, ?_, ?_⟩
  · intro v
    rw [mem_freeVars, mentions_iff]
  · intro env env' h
    exact eval_congr fun v hv => h v (mem_freeVars.2 hv)
  · intro rs rs' budget h
    refine prune_congr (fun v hv => ?_) budget
    rw [Ranges.effective, Ranges.effective, h v (mem_freeVars.2 hv)]
  · intro rs budget v hv
    have hsub := vars_prune_sublist rs.effective f budget
    exact mem_freeVars.2 (hsub.subset (mem_freeVars.1 hv))

/-- `z` is met before `x` and `y`, and each of them again later. Of `w`, which does not occur, two
assignments and two ranges say different things. The first argument is settled and takes the first
place of `z` and that of `x` with it. -/
theorem freeVars_determine_repeated :
    let x : Term := .var ⟨0⟩
    let y : Term := .var ⟨1⟩
    let z : Term := .var ⟨2⟩
    let f : Formula := .conn .or [.cmp .lt (.bin .sub z z) (.neg x),
      .not (.cmp .le (.bin .mul y (.const 2)) (.bin .add z y)), .cmp .eq x z]
    let rs : Ranges := ⟨[(⟨0⟩, ⟨.fin 7, .posInf⟩), (⟨2⟩, .point 4), (⟨3⟩, .point 0)]⟩
    let rs' : Ranges := ⟨[(⟨3⟩, ⟨.fin 1, .fin 0⟩), (⟨2⟩, .point 4), (⟨0⟩, ⟨.fin 7, .posInf⟩)]⟩
    let env : Var → Int := fun v => if v = ⟨3⟩ then 0 else 5
    let env' : Var → Int := fun _ => 5
    f.freeVars = [⟨2⟩, ⟨0⟩, ⟨1⟩] ∧ (f.collect .empty).order = [⟨2⟩, ⟨0⟩, ⟨1⟩] ∧
      (∀ v ∈ f.freeVars, env v = env' v) ∧ f.eval env = f.eval env' ∧
      (∀ v ∈ f.freeVars, rs.get v = rs'.get v) ∧ rs.prune f 30 = rs'.prune f 30 ∧
      (rs.prune f 30).formula =
        .not (.cmp .le (.bin .mul y (.const 2)) (.bin .add (.const 4) y)) ∧
      ⟨1⟩ ∈ f.freeVars := by
  intro x y z f rs rs' env env'
  obtain ⟨⟨horder, -⟩, heval, hprune, hvars⟩ := freeVars_determine f
  have hfree : f.freeVars = [⟨2⟩, ⟨0⟩, ⟨1⟩] := by decide
  have henv : ∀ v ∈ f.freeVars, env v = env' v := by decide
  have hget : ∀ v ∈ f.freeVars, rs.get v = rs'.get v := by decide
  have hleft : ⟨1⟩ ∈ (rs.prune f 30).formula.freeVars := by decide
  exact ⟨hfree, horder ▸ hfree, henv, heval env env' henv, hget, hprune rs rs' 30 hget, by decide,
    hvars rs 30 ⟨1⟩ hleft⟩

end Formula

end IntervalPruning
