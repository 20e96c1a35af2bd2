import IntervalPruning.NameTable
import IntervalPruning.Proofs.Keys
import Mathlib.Data.List.Basic

/-!
# IntervalPruning.Proofs.NameTable

Many names interned one after the other, `internAll`. The table then has each of them once, in the
order of first sight (`names_internAll`), and the variable that a name was given is the place where it
stands in the table at the end, however many names came after it (`vars_internAll`). So a name that is
known keeps its variable (`lookup_internAll`).

As long as the places fit into 32 bits, `WellFormed`, a name and its variable lead to each other
(`WellFormed.lookup_eq_some_iff`), and so two variables that were handed out never have the same name
(`name_inj`).
-/

namespace IntervalPruning

namespace NameTable

variable {t : NameTable} {s : String} {v : Var}

/-- The variables of the names, one for each, and the table that knows them all. -/
def internAll (t : NameTable) : List String → List Var × NameTable
  | [] => ([], t)
  | s :: ss =>
    let (v, u) := t.intern s
    let (vs, last) := u.internAll ss
    (v :: vs, last)

theorem internAll_cons (t : NameTable) (s : String) (ss : List String) :
    t.internAll (s :: ss) =
      ((t.intern s).1 :: ((t.intern s).2.internAll ss).1, ((t.intern s).2.internAll ss).2) := rfl

/-! ## One name -/

theorem lookup_eq_of_mem (h : s ∈ t.names) : t.lookup s = some (varAt (t.names.idxOf s)) := by
  have hsome : (t.names.idxOf? s).isSome := by
    rw [← Option.isSome_map]
    exact lookup_isSome.2 h
  obtain ⟨k, hk⟩ := Option.isSome_iff_exists.1 hsome
  rw [lookup, List.idxOf_eq_getD_idxOf?, hk]
  rfl

theorem lookup_eq_some_iff_idxOf :
    t.lookup s = some v ↔ s ∈ t.names ∧ varAt (t.names.idxOf s) = v := by
  constructor
  · intro hv
    have hs : s ∈ t.names := lookup_isSome.1 (by rw [hv]; rfl)
    rw [lookup_eq_of_mem hs] at hv
    exact ⟨hs, Option.some.inj hv⟩
  · rintro ⟨hs, rfl⟩
    exact lookup_eq_of_mem hs

theorem intern_of_lookup (h : t.lookup s = some v) : t.intern s = (v, t) := by
  rw [intern, h]

theorem names_intern (h : t.names.Nodup) (s : String) :
    (t.intern s).2.names = (t.names ++ [s]).eraseDups := by
  rw [eraseDups_concat, eraseDups_of_nodup h]
  by_cases hs : s ∈ t.names
  · rw [if_pos hs, intern_of_mem hs]
  · rw [if_neg hs, intern_of_not_mem hs]

theorem mem_names_intern (t : NameTable) (s : String) : s ∈ (t.intern s).2.names := by
  by_cases hs : s ∈ t.names
  · rw [intern_of_mem hs]
    exact hs
  · rw [intern_of_not_mem hs]
    exact List.mem_append_right t.names (List.mem_singleton_self s)

theorem prefix_names_intern (t : NameTable) (s : String) : t.names <+: (t.intern s).2.names := by
  by_cases hs : s ∈ t.names
  · simp [intern_of_mem hs]
  · rw [intern_of_not_mem hs]
    exact List.prefix_append _ _

theorem var_intern (t : NameTable) (s : String) :
    (t.intern s).1 = varAt ((t.intern s).2.names.idxOf s) := by
  by_cases hs : s ∈ t.names
  · rw [intern_of_mem hs, intern, lookup_eq_of_mem hs]
  · rw [intern_of_not_mem hs]
    show varAt t.names.length = varAt ((t.names ++ [s]).idxOf s)
    rw [List.idxOf_append_of_notMem hs, List.idxOf_cons_self, Nat.add_zero]

/-! ## Many names -/

theorem prefix_names_internAll (t : NameTable) (ss : List String) :
    t.names <+: (t.internAll ss).2.names := by
  induction ss generalizing t with
  | nil => exact List.prefix_refl _
  | cons s ss ih => exact (prefix_names_intern t s).trans (ih _)

theorem names_internAll (h : t.names.Nodup) (ss : List String) :
    (t.internAll ss).2.names = (t.names ++ ss).eraseDups := by
  induction ss generalizing t with
  | nil =>
    rw [List.append_nil, eraseDups_of_nodup h]
    rfl
  | cons s ss ih =>
    have hnext : (t.intern s).2.names.Nodup := by
      rw [names_intern h]
      exact nodup_eraseDups _
    rw [internAll_cons, ih hnext, names_intern h, eraseDups_eraseDups_append, List.append_assoc,
      List.singleton_append]

theorem vars_internAll (t : NameTable) (ss : List String) :
    (t.internAll ss).1 = ss.map fun s => varAt ((t.internAll ss).2.names.idxOf s) := by
  induction ss generalizing t with
  | nil => rfl
  | cons s ss ih =>
    -- names that come later do not move this one
    obtain ⟨more, hmore⟩ := prefix_names_internAll (t.intern s).2 ss
    rw [internAll_cons, List.map_cons, ← ih, var_intern, ← hmore,
      List.idxOf_append_of_mem (mem_names_intern t s)]

theorem length_vars_internAll (t : NameTable) (ss : List String) :
    (t.internAll ss).1.length = ss.length := by
  rw [vars_internAll, List.length_map]

theorem lookup_internAll (h : t.lookup s = some v) (ss : List String) :
    (t.internAll ss).2.lookup s = some v := by
  obtain ⟨hs, rfl⟩ := lookup_eq_some_iff_idxOf.1 h
  have hpre := prefix_names_internAll t ss
  exact lookup_eq_some_iff_idxOf.2 ⟨hpre.subset hs, by rw [hpre.idxOf_eq_of_mem hs]⟩

/-! ## From the empty table -/

theorem names_internAll_empty (ss : List String) : (empty.internAll ss).2.names = ss.eraseDups :=
  names_internAll List.nodup_nil ss

theorem size_internAll_empty (ss : List String) :
    (empty.internAll ss).2.size = ss.eraseDups.length :=
  congrArg List.length (names_internAll_empty ss)

/-- What was returned for a name is what the table at the end has for it. -/
theorem mem_zip_internAll_empty {ss : List String} :
    (s, v) ∈ ss.zip (empty.internAll ss).1 ↔ (empty.internAll ss).2.lookup s = some v := by
  rw [lookup_eq_some_iff_idxOf, vars_internAll, names_internAll_empty, List.mem_eraseDups,
    ← List.map_prod_left_eq_zip]
  simp

theorem exists_lookup_of_mem {ss : List String} (hs : s ∈ ss) :
    ∃ v, (empty.internAll ss).2.lookup s = some v := by
  rw [← Option.isSome_iff_exists, lookup_isSome, names_internAll_empty, List.mem_eraseDups]
  exact hs

theorem exists_lookup_of_mem_vars {ss : List String} (hv : v ∈ (empty.internAll ss).1) :
    ∃ s, (empty.internAll ss).2.lookup s = some v := by
  rw [vars_internAll] at hv
  obtain ⟨s, hs, rfl⟩ := List.mem_map.1 hv
  refine ⟨s, lookup_eq_some_iff_idxOf.2 ⟨?_, rfl⟩⟩
  rw [names_internAll_empty, List.mem_eraseDups]
  exact hs

/-! ## Back to the variable -/

theorem toNat_varAt {k : Nat} (h : k < UInt32.size) : (varAt k).id.toNat = k :=
  UInt32.toNat_ofNat_of_lt' h

theorem varAt_toNat (v : Var) : varAt v.id.toNat = v := by
  rw [varAt, UInt32.ofNat_toNat]

/-- Each name once, and a number for every one of them. -/
structure WellFormed (t : NameTable) : Prop where
  nodup : t.names.Nodup
  size : t.size < UInt32.size

theorem wellFormed_internAll_empty {ss : List String} (hss : ss.eraseDups.length < UInt32.size) :
    (empty.internAll ss).2.WellFormed := by
  constructor
  · rw [names_internAll_empty]
    exact nodup_eraseDups ss
  · rw [size_internAll_empty]
    exact hss

namespace WellFormed

/-- To look up a name and to read the name of a variable are inverse to each other. -/
theorem lookup_eq_some_iff (h : t.WellFormed) : t.lookup s = some v ↔ t.name? v = some s := by
  rw [lookup_eq_some_iff_idxOf]
  constructor
  · rintro ⟨hs, rfl⟩
    have hlt : t.names.idxOf s < t.size := List.idxOf_lt_length_of_mem hs
    rw [name?, toNat_varAt (Nat.lt_trans hlt h.size)]
    exact List.getElem?_idxOf hs
  · intro hs
    obtain ⟨hlt, rfl⟩ := List.getElem?_eq_some_iff.1 hs
    refine ⟨List.getElem_mem hlt, ?_⟩
    rw [h.nodup.idxOf_getElem, varAt_toNat]

theorem name_of_lookup (h : t.WellFormed) (hv : t.lookup s = some v) : t.name v = s := by
  rw [name, h.lookup_eq_some_iff.1 hv, Option.getD_some]

theorem lookup_name (h : t.WellFormed) (hv : v.id.toNat < t.size) :
    t.lookup (t.name v) = some v := by
  have hs : t.name? v = some t.names[v.id.toNat] := List.getElem?_eq_getElem hv
  rw [name, hs, Option.getD_some]
  exact h.lookup_eq_some_iff.2 hs

theorem var_eq_iff (h : t.WellFormed) {r : String} {w : Var} (hv : t.lookup s = some v)
    (hw : t.lookup r = some w) : v = w ↔ s = r := by
  constructor
  · rintro rfl
    rw [← h.name_of_lookup hv, h.name_of_lookup hw]
  · rintro rfl
    exact Option.some.inj (hv.symm.trans hw)

/-- The variable of a name has the number of the place where the name stands. -/
theorem toNat_of_lookup (h : t.WellFormed) (hv : t.lookup s = some v) {k : Nat}
    (hk : t.names[k]? = some s) : v.id.toNat = k := by
  have hs : t.names[v.id.toNat]? = some s := h.lookup_eq_some_iff.1 hv
  have hlt : v.id.toNat < t.names.length := (List.getElem?_eq_some_iff.1 hs).1
  exact (List.getElem?_inj hlt h.nodup).1 (hs.trans hk.symm)

end WellFormed

theorem name_inj {ss : List String} (hss : ss.eraseDups.length < UInt32.size) {w : Var}
    (hv : v ∈ (empty.internAll ss).1) (hw : w ∈ (empty.internAll ss).1) :
    (empty.internAll ss).2.name v = (empty.internAll ss).2.name w ↔ v = w := by
  have h := wellFormed_internAll_empty hss
  obtain ⟨s, hs⟩ := exists_lookup_of_mem_vars hv
  obtain ⟨r, hr⟩ := exists_lookup_of_mem_vars hw
  rw [h.name_of_lookup hs, h.name_of_lookup hr]
  exact (h.var_eq_iff hs hr).symm

end NameTable

end IntervalPruning
