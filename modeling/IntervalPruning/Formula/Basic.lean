import IntervalPruning.Term

/-!
# IntervalPruning.Formula.Basic

Truth-valued expressions: comparisons of terms, negation, and the two connectives `and` and `or`
over any number of arguments.

The connectives differ only in the truth value that decides them: a false argument decides
`and`, a true one decides `or`. That value is `Connective.absorbing`; with no argument to
decide it, a connective has the other value.
-/

namespace IntervalPruning

inductive Connective where
  | and
  | or
  deriving DecidableEq, Repr

/-- The truth value of one argument that settles the whole. -/
def Connective.absorbing : Connective → Bool
  | and => false
  | or => true

inductive Formula where
  | const (b : Bool)
  | cmp (r : Rel) (s t : Term)
  | not (f : Formula)
  | conn (c : Connective) (args : List Formula)

namespace Formula

/-- Induction where a connective has the hypothesis for each of its arguments. -/
@[elab_as_elim, induction_eliminator]
theorem inductionOn {motive : Formula → Prop}
    (const : ∀ b, motive (.const b))
    (cmp : ∀ r s t, motive (.cmp r s t))
    (not : ∀ f, motive f → motive (.not f))
    (conn : ∀ c args, (∀ f ∈ args, motive f) → motive (.conn c args))
    (f : Formula) : motive f :=
  match f with
  | .const b => const b
  | .cmp r s t => cmp r s t
  | .not f => not f (inductionOn const cmp not conn f)
  | .conn c args => conn c args fun f _ => inductionOn const cmp not conn f

mutual
def decEq : (f g : Formula) → Decidable (f = g)
  | const a, const b => decidable_of_iff (a = b) (by simp)
  | cmp r s t, cmp r' s' t' => decidable_of_iff (r = r' ∧ s = s' ∧ t = t') (by simp)
  | not f, not g =>
    match decEq f g with
    | isTrue h => isTrue (h ▸ rfl)
    | isFalse h => isFalse fun e => h (not.inj e)
  | conn c fs, conn d gs =>
    if hc : c = d then
      match decEqArgs fs gs with
      | isTrue h => isTrue (hc ▸ h ▸ rfl)
      | isFalse h => isFalse fun e => h (conn.inj e).2
    else isFalse fun e => hc (conn.inj e).1
  | const _, cmp _ _ _ => isFalse nofun
  | const _, not _ => isFalse nofun
  | const _, conn _ _ => isFalse nofun
  | cmp _ _ _, const _ => isFalse nofun
  | cmp _ _ _, not _ => isFalse nofun
  | cmp _ _ _, conn _ _ => isFalse nofun
  | not _, const _ => isFalse nofun
  | not _, cmp _ _ _ => isFalse nofun
  | not _, conn _ _ => isFalse nofun
  | conn _ _, const _ => isFalse nofun
  | conn _ _, cmp _ _ _ => isFalse nofun
  | conn _ _, not _ => isFalse nofun

def decEqArgs : (fs gs : List Formula) → Decidable (fs = gs)
  | [], [] => isTrue rfl
  | [], _ :: _ => isFalse nofun
  | _ :: _, [] => isFalse nofun
  | f :: fs, g :: gs =>
    match decEq f g with
    | isFalse h => isFalse fun e => h (List.cons.inj e).1
    | isTrue h =>
      match decEqArgs fs gs with
      | isTrue hs => isTrue (h ▸ hs ▸ rfl)
      | isFalse hs => isFalse fun e => hs (List.cons.inj e).2
end

instance : DecidableEq Formula := decEq

def const? : Formula → Option Bool
  | const b => some b
  | _ => none

theorem const?_eq_some_iff {f : Formula} {b : Bool} : f.const? = some b ↔ f = const b := by
  cases f <;> simp [const?]

mutual
/-- The number of nodes, those of terms included. -/
def size : Formula → Nat
  | const _ => 1
  | cmp _ s t => 1 + s.size + t.size
  | not f => 1 + f.size
  | conn _ args => 1 + sizeArgs args

def sizeArgs : List Formula → Nat
  | [] => 0
  | f :: fs => f.size + sizeArgs fs
end

mutual
def eval (env : Var → Int) : Formula → Bool
  | const b => b
  | cmp r s t => r.holds (s.eval env) (t.eval env)
  | not f => !f.eval env
  | conn c args => evalArgs env c args

/-- The arguments are read up to the first that settles the connective. -/
def evalArgs (env : Var → Int) (c : Connective) : List Formula → Bool
  | [] => !c.absorbing
  | f :: fs => if f.eval env = c.absorbing then c.absorbing else evalArgs env c fs
end

/-- A connective has its absorbing value exactly if some argument has. -/
theorem evalArgs_eq_absorbing_iff {env : Var → Int} {c : Connective} {fs : List Formula} :
    evalArgs env c fs = c.absorbing ↔ ∃ f ∈ fs, f.eval env = c.absorbing := by
  induction fs with
  | nil => simp [evalArgs]
  | cons f fs ih =>
    by_cases h : f.eval env = c.absorbing
    · simp [evalArgs, h]
    · simp [evalArgs, h, ih]

theorem eval_and (env : Var → Int) (fs : List Formula) :
    (conn .and fs).eval env = fs.all (·.eval env) := by
  have h : (conn .and fs).eval env = false ↔ ∃ f ∈ fs, f.eval env = false :=
    evalArgs_eq_absorbing_iff (c := .and)
  cases hv : (conn .and fs).eval env with
  | false => exact (List.all_eq_false.2 (by simpa using h.1 hv)).symm
  | true =>
    symm
    rw [List.all_eq_true]
    intro f hf
    rw [← Bool.not_eq_false]
    exact fun hff => Bool.noConfusion (hv.symm.trans (h.2 ⟨f, hf, hff⟩))

theorem eval_or (env : Var → Int) (fs : List Formula) :
    (conn .or fs).eval env = fs.any (·.eval env) := by
  rw [Bool.eq_iff_iff, List.any_eq_true]
  exact evalArgs_eq_absorbing_iff (c := .or)

end Formula

end IntervalPruning
