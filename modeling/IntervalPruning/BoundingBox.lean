import IntervalPruning.NameTable
import IntervalPruning.Ranges.Basic

/-!
# IntervalPruning.BoundingBox

The box in which all solutions lie, given by the two ends of the interval of each variable: `x`
has the ends labelled `x_low` and `x_up`. A corner of the box need not be a solution.
-/

namespace IntervalPruning

structure BoxEnd where
  var : Var
  label : String
  value : ExtInt
  deriving DecidableEq, Repr

structure BoundingBox where
  ends : List BoxEnd
  deriving DecidableEq, Repr

namespace BoundingBox

def endsOf (names : NameTable) (v : Var) (i : Interval) : List BoxEnd :=
  [⟨v, names.name v ++ "_low", i.lower⟩, ⟨v, names.name v ++ "_up", i.upper⟩]

def ofRanges (names : NameTable) (rs : Ranges) : BoundingBox :=
  ⟨rs.entries.flatMap fun e => endsOf names e.1 e.2⟩

def size (b : BoundingBox) : Nat := b.ends.length

def get? (b : BoundingBox) (label : String) : Option ExtInt :=
  (b.ends.find? fun e => e.label = label).map BoxEnd.value

def text (b : BoundingBox) : String :=
  "\x7b" ++ ", ".intercalate (b.ends.map fun e => e.label ++ " = " ++ e.value.text) ++ "\x7d"

end BoundingBox

end IntervalPruning
