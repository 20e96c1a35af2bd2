import IntervalPruning.Proofs.NameTable

/-!
# IntervalPruning.Proofs.NameTable.Interner

Names kept in two parts: a list of them in the order of first sight, and an index that has the variable
of each. A new name changes each part on its own, and nothing in the type keeps the two in step: a
variable could have a name under which the index has another.

A table of names says in one list what the two parts say together, `Interner.Represents`, and interning
keeps it so (`Interner.Represents.internAll`).

`NameTable.internAll_bijective` says for both what becomes of a sequence of names: names and variables
are matched one to one, and a match lasts.
-/

namespace IntervalPruning

structure Interner where
  names : List String
  index : String → Option Var

namespace Interner

def empty : Interner := ⟨[], fun _ => none⟩

def intern (d : Interner) (s : String) : Var × Interner :=
  match d.index s with
  | some v => (v, d)
  | none =>
    let v := NameTable.varAt d.names.length
    (v, ⟨d.names ++ [s], fun r => if r = s then some v else d.index r⟩)

/-- The variables of the names, one for each, and the two parts at the end. -/
def internAll (d : Interner) : List String → List Var × Interner
  | [] => ([], d)
  | s :: ss =>
    let (v, e) := d.intern s
    let (vs, last) := e.internAll ss
    (v :: vs, last)

end Interner

theorem NameTable.lookup_concat {t : NameTable} {s : String} (hs : s ∉ t.names) (r : String) :
    (⟨t.names ++ [s]⟩ : NameTable).lookup r =
      if r = s then some (varAt t.size) else t.lookup r := by
  by_cases hr : r = s
  · rw [if_pos hr, hr, lookup_eq_of_mem (List.mem_append_right _ (List.mem_singleton_self s)),
      List.idxOf_append_of_notMem hs, List.idxOf_cons_self]
    rfl
  · rw [if_neg hr]
    ext v
    rw [lookup_eq_some_iff_idxOf, lookup_eq_some_iff_idxOf, List.mem_append, List.mem_singleton]
    constructor
    · rintro ⟨hmem, rfl⟩
      have hold := hmem.resolve_right hr
      exact ⟨hold, by rw [List.idxOf_append_of_mem hold]⟩
    · rintro ⟨hold, rfl⟩
      exact ⟨.inl hold, by rw [List.idxOf_append_of_mem hold]⟩

namespace Interner

/-- The two parts say what the table says. -/
structure Represents (d : Interner) (t : NameTable) : Prop where
  names : d.names = t.names
  index : ∀ s, d.index s = t.lookup s

theorem represents_empty : empty.Represents .empty := ⟨rfl, fun _ => rfl⟩

namespace Represents

variable {d : Interner} {t : NameTable}

theorem intern (h : d.Represents t) (s : String) :
    (d.intern s).1 = (t.intern s).1 ∧ (d.intern s).2.Represents (t.intern s).2 := by
  unfold Interner.intern
  rw [h.index]
  cases hs : t.lookup s with
  | some v =>
    rw [NameTable.intern_of_lookup hs]
    exact ⟨rfl, h⟩
  | none =>
    have hnew : s ∉ t.names := by
      rw [← NameTable.lookup_isSome, hs]
      exact Bool.false_ne_true
    rw [NameTable.intern_of_not_mem hnew, h.names]
    refine ⟨rfl, rfl, fun r => ?_⟩
    rw [NameTable.lookup_concat hnew, ← h.index]
    rfl

theorem internAll (h : d.Represents t) (ss : List String) :
    (d.internAll ss).1 = (t.internAll ss).1 ∧
      (d.internAll ss).2.Represents (t.internAll ss).2 := by
  induction ss generalizing d t with
  | nil => exact ⟨rfl, h⟩
  | cons s ss ih =>
    obtain ⟨hvar, hnext⟩ := h.intern s
    obtain ⟨hvars, hlast⟩ := ih hnext
    rw [NameTable.internAll_cons]
    exact ⟨congrArg₂ List.cons hvar hvars, hlast⟩

end Represents

end Interner

namespace NameTable

/-- **Interning is a bijection.** Names are interned one after the other, with fewer than `2 ^ 32`
different ones among them. Each call returns a variable, and two calls return the same one exactly if
they were about the same name. The variable of the name that was new after `k` others has the number
`k`, and a later call for this name returns it again, whatever is interned in between. The table has as
many names as there were different ones. To look up a name finds a variable exactly if some call for
the name returned it; the name of what a name leads to is this name, and the name of each variable
below the size of the table leads back to it. A list of names and an index that are kept side by side
return the same and say the same, and are inverse to each other. -/
theorem internAll_bijective (ss : List String) (hss : ss.toFinset.card < UInt32.size) :
    let vs := (empty.internAll ss).1
    let t := (empty.internAll ss).2
    let calls := ss.zip vs
    let parts := (Interner.empty.internAll ss).2
    (vs.length = ss.length ∧ ∀ c ∈ calls, ∀ d ∈ calls, c.2 = d.2 ↔ c.1 = d.1) ∧
      (∀ k s, ss.eraseDups[k]? = some s → ∀ v, (s, v) ∈ calls →
        v.id.toNat = k ∧ ∀ more, ((t.internAll more).2.intern s).1 = v) ∧
      t.size = ss.toFinset.card ∧
      (∀ s v, t.lookup s = some v ↔ (s, v) ∈ calls) ∧
      ((∀ s ∈ ss, (t.lookup s).map t.name = some s) ∧
        ∀ v, v.id.toNat < t.size → t.lookup (t.name v) = some v) ∧
      (Interner.empty.internAll ss).1 = vs ∧ parts.names = t.names ∧
      (∀ s, parts.index s = t.lookup s) ∧
      ∀ s v, parts.index s = some v ↔ parts.names[v.id.toNat]? = some s := by
  intro vs t calls parts
  have hcard : t.size = ss.toFinset.card := (size_internAll_empty ss).trans (length_eraseDups ss)
  have ht : t.WellFormed := wellFormed_internAll_empty (length_eraseDups ss ▸ hss)
  have hcalls : ∀ {s v}, (s, v) ∈ calls ↔ t.lookup s = some v := mem_zip_internAll_empty
  obtain ⟨hvars, hrepresents⟩ := Interner.represents_empty.internAll ss
  refine ⟨⟨length_vars_internAll empty ss, ?_⟩, ?_, hcard, fun s v => hcalls.symm,
    ⟨?_, fun v => ht.lookup_name⟩, hvars, hrepresents.names, hrepresents.index, ?_⟩
  · rintro ⟨s, v⟩ hs ⟨r, w⟩ hr
    exact ht.var_eq_iff (hcalls.1 hs) (hcalls.1 hr)
  · intro k s hk v hs
    have hv := hcalls.1 hs
    rw [← names_internAll_empty ss] at hk
    refine ⟨ht.toNat_of_lookup hv hk, ?_⟩
    intro more
    rw [intern_of_lookup (lookup_internAll hv more)]
  · intro s hs
    obtain ⟨v, hv⟩ := exists_lookup_of_mem hs
    rw [hv, Option.map_some, ht.name_of_lookup hv]
  · intro s v
    rw [hrepresents.index, hrepresents.names]
    exact ht.lookup_eq_some_iff

/-- Three of the six calls are about a name that was seen before. The name `v0` reads like a variable,
but not like the one that it is given. -/
theorem internAll_bijective_repeated :
    let ss := ["x", "v0", "x", "", "v0", "x"]
    let t := (empty.internAll ss).2
    ss.toFinset.card < UInt32.size ∧ (empty.internAll ss).1 = [⟨0⟩, ⟨1⟩, ⟨0⟩, ⟨2⟩, ⟨1⟩, ⟨0⟩] ∧
      t.size = 3 ∧ ((t.internAll ["y", "z"]).2.intern "v0").1 = ⟨1⟩ ∧
      t.lookup "v0" = some ⟨1⟩ ∧ (t.lookup "v0").map t.name = some "v0" ∧
      t.lookup (t.name ⟨2⟩) = some ⟨2⟩ ∧
      (Interner.empty.internAll ss).2.index "y" = none := by
  intro ss t
  have hss : ss.toFinset.card < UInt32.size := by decide
  obtain ⟨-, hnew, hsize, hlookup, ⟨hname, hvar⟩, -, -, hindex, -⟩ := internAll_bijective ss hss
  have hcall : ("v0", ⟨1⟩) ∈ ss.zip (empty.internAll ss).1 := by decide
  have hlast := (hnew 1 "v0" (by decide) ⟨1⟩ hcall).2 ["y", "z"]
  exact ⟨hss, by decide, hsize.trans (by decide), hlast, (hlookup "v0" ⟨1⟩).2 hcall,
    hname "v0" (by decide), hvar ⟨2⟩ (by decide), (hindex "y").trans (by decide)⟩

end NameTable

end IntervalPruning
