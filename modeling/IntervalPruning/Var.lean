/-!
# IntervalPruning.Var

Variables are numbers. A number may have a name in a `NameTable`; without one it is written
`v0`, `v1`, and so on.
-/

namespace IntervalPruning

structure Var where
  id : UInt32
  deriving DecidableEq, Repr

def Var.text (v : Var) : String := "v" ++ toString v.id.toNat

end IntervalPruning
