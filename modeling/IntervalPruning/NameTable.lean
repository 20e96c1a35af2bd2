import IntervalPruning.Var

/-!
# IntervalPruning.NameTable

Names of variables, each given the next free number when it is first seen:

* `intern` — the variable of a name, with the table that knows it;
* `lookup` — the variable of a name already seen;
* `name`   — the way back; a variable without a name is written by its number.
-/

namespace IntervalPruning

structure NameTable where
  names : List String
  deriving DecidableEq, Repr

namespace NameTable

def empty : NameTable := ⟨[]⟩

def size (t : NameTable) : Nat := t.names.length

/-- The variable at a position of the table; numbers are 32 bits wide. -/
def varAt (k : Nat) : Var := ⟨UInt32.ofNat k⟩

def lookup (t : NameTable) (s : String) : Option Var :=
  (t.names.idxOf? s).map varAt

def intern (t : NameTable) (s : String) : Var × NameTable :=
  match t.lookup s with
  | some v => (v, t)
  | none => (varAt t.size, ⟨t.names ++ [s]⟩)

def name? (t : NameTable) (v : Var) : Option String := t.names[v.id.toNat]?

def name (t : NameTable) (v : Var) : String := (t.name? v).getD v.text

theorem lookup_isSome {t : NameTable} {s : String} : (t.lookup s).isSome ↔ s ∈ t.names := by
  simp [lookup]

theorem intern_of_mem {t : NameTable} {s : String} (h : s ∈ t.names) : (t.intern s).2 = t := by
  obtain ⟨v, hv⟩ := Option.isSome_iff_exists.1 (lookup_isSome.2 h)
  simp [intern, hv]

theorem intern_of_not_mem {t : NameTable} {s : String} (h : s ∉ t.names) :
    t.intern s = (varAt t.size, ⟨t.names ++ [s]⟩) := by
  have hn : t.lookup s = none := by
    rw [← Option.not_isSome_iff_eq_none]
    exact fun hs => h (lookup_isSome.1 hs)
  simp [intern, hn]

end NameTable

end IntervalPruning
