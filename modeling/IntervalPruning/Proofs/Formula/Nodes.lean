import IntervalPruning.Formula.Vars

/-!
# IntervalPruning.Proofs.Formula.Nodes

All places of a tree, the whole first and then from left to right: `Term.nodes`, and `Formula.nodes`
for the truth-valued places. What is said of every node of a tree holds of the tree itself
(`Formula.mem_nodes_self`), and of a connective exactly if it holds of the connective and at all nodes of its
arguments (`mem_nodes_conn`). The variables of a formula are those that stand at some place of it
(`Formula.mentions_iff`).
-/

namespace IntervalPruning

namespace Term

def nodes : Term → List Term
  | var v => [var v]
  | const n => [const n]
  | neg t => neg t :: t.nodes
  | bin op s t => bin op s t :: (s.nodes ++ t.nodes)

theorem var_mem_nodes_iff {t : Term} {v : Var} : var v ∈ t.nodes ↔ v ∈ t.vars := by
  induction t with
  | var w => simp [nodes, vars]
  | const n => simp [nodes, vars]
  | neg t ih => simpa [nodes, vars] using ih
  | bin op s t ihs iht => simp [nodes, vars, ihs, iht]

end Term

namespace Formula

mutual
def nodes : Formula → List Formula
  | const b => [const b]
  | cmp r s t => [cmp r s t]
  | not f => not f :: f.nodes
  | conn c args => conn c args :: nodesArgs args

def nodesArgs : List Formula → List Formula
  | [] => []
  | f :: fs => f.nodes ++ nodesArgs fs
end

theorem mem_nodes_self (f : Formula) : f ∈ f.nodes := by
  cases f <;> simp [nodes]

theorem nodesArgs_eq_flatMap (fs : List Formula) : nodesArgs fs = fs.flatMap nodes := by
  induction fs with
  | nil => rfl
  | cons f fs ih => simp [nodesArgs, ih]

theorem mem_nodes_conn {c : Connective} {args : List Formula} {g : Formula} :
    g ∈ (conn c args).nodes ↔ g = conn c args ∨ ∃ f ∈ args, g ∈ f.nodes := by
  simp [nodes, nodesArgs_eq_flatMap]

/-- The variable stands at some place of the formula. -/
def Mentions (f : Formula) (v : Var) : Prop :=
  ∃ r s t, cmp r s t ∈ f.nodes ∧ (.var v ∈ s.nodes ∨ .var v ∈ t.nodes)

theorem mentions_iff {f : Formula} {v : Var} : f.Mentions v ↔ v ∈ f.vars := by
  unfold Mentions
  induction f with
  | const b => simp [nodes, vars]
  | cmp r s t =>
    simp only [nodes, vars, Term.var_mem_nodes_iff, List.mem_singleton, List.mem_append]
    constructor
    · rintro ⟨r', s', t', heq, hv⟩
      cases heq
      exact hv
    · intro hv
      exact ⟨r, s, t, rfl, hv⟩
  | not f ih => simpa [nodes, vars] using ih
  | conn c args ih =>
    rw [vars, varsArgs_eq_flatMap, List.mem_flatMap]
    constructor
    · rintro ⟨r, s, t, hcmp, hv⟩
      rcases mem_nodes_conn.1 hcmp with heq | ⟨f, hf, hcmp⟩
      · cases heq
      · exact ⟨f, hf, (ih f hf).1 ⟨r, s, t, hcmp, hv⟩⟩
    · rintro ⟨f, hf, hv⟩
      obtain ⟨r, s, t, hcmp, hv⟩ := (ih f hf).2 hv
      exact ⟨r, s, t, mem_nodes_conn.2 (Or.inr ⟨f, hf, hcmp⟩), hv⟩

end Formula

end IntervalPruning
