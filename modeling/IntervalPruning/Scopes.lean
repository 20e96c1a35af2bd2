/-!
# IntervalPruning.Scopes

A stack of scopes, each a list of items in the order in which they came. There is always an
innermost scope to add to; closing the only one is refused.
-/

namespace IntervalPruning

structure Scopes (α : Type) where
  /-- the innermost scope -/
  current : List α
  /-- the scopes around it, the nearest first -/
  outer : List (List α)
  deriving DecidableEq, Repr

namespace Scopes

variable {α : Type}

def empty : Scopes α := ⟨[], []⟩

def add (s : Scopes α) (a : α) : Scopes α := { s with current := s.current ++ [a] }

def push (s : Scopes α) : Scopes α := ⟨[], s.current :: s.outer⟩

def pop? (s : Scopes α) : Option (Scopes α) :=
  match s.outer with
  | [] => none
  | c :: cs => some ⟨c, cs⟩

/-- All items, those of the outer scopes first. -/
def toList (s : Scopes α) : List α := s.outer.reverse.flatten ++ s.current

@[simp] theorem toList_add (s : Scopes α) (a : α) : (s.add a).toList = s.toList ++ [a] := by
  simp [toList, add]

@[simp] theorem toList_push (s : Scopes α) : s.push.toList = s.toList := by
  simp [toList, push]

end Scopes

end IntervalPruning
