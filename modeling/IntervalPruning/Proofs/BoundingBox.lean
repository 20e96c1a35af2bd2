import IntervalPruning.BoundingBox
import IntervalPruning.Proofs.NameTable
import IntervalPruning.Proofs.Ranges.Updates
import Mathlib.Data.List.Nodup

/-!
# IntervalPruning.Proofs.BoundingBox

A label finds the end that it names. The first end with a label is taken (`BoundingBox.get?`), so
this rests on all labels being different: those of one variable end in different letters, and those of
two variables begin with different names (`nodup_labels`), whatever the names are. Names may look like
labels themselves, as with the variables `x` and `x_low`.

`BoundingBox.ofRanges_faithful` says this of any table that came about by interning names, and of any
ranges that came about by updates of its variables.
-/

namespace IntervalPruning

namespace BoundingBox

variable {b : BoundingBox} {e : BoxEnd} {names : NameTable} {rs : Ranges} {v w : Var}

/-! ## Finding by label -/

theorem get?_eq_none_iff {label : String} :
    b.get? label = none ↔ ∀ e ∈ b.ends, e.label ≠ label := by
  simp [get?]

theorem get?_label_of_mem (h : (b.ends.map BoxEnd.label).Nodup) (he : e ∈ b.ends) :
    b.get? e.label = some e.value := by
  obtain ⟨d, hd⟩ : ∃ d, b.ends.find? (fun d => d.label = e.label) = some d := by
    cases hfind : b.ends.find? (fun d => d.label = e.label) with
    | some d => exact ⟨d, rfl⟩
    | none => simpa using List.find?_eq_none.1 hfind e he
  have hmem : d ∈ b.ends := List.mem_of_find?_eq_some hd
  have hlabel : d.label = e.label := by simpa using List.find?_some hd
  rw [get?, hd, List.inj_on_of_nodup_map h hmem he hlabel]
  rfl

/-! ## Labels -/

theorem append_low_ne_append_up (s t : String) : s ++ "_low" ≠ t ++ "_up" := by
  intro h
  have hlast := congrArg (fun u : String => u.toList.getLast?) h
  simp at hlast

theorem labels_endsOf (names : NameTable) (v : Var) (i : Interval) :
    (endsOf names v i).map BoxEnd.label = [names.name v ++ "_low", names.name v ++ "_up"] := rfl

theorem disjoint_labels (h : names.name v ≠ names.name w) (i j : Interval) :
    ((endsOf names v i).map BoxEnd.label).Disjoint ((endsOf names w j).map BoxEnd.label) := by
  have hlow : names.name v ++ "_low" ≠ names.name w ++ "_low" := fun heq =>
    h ((String.append_left_inj _).1 heq)
  have hup : names.name v ++ "_up" ≠ names.name w ++ "_up" := fun heq =>
    h ((String.append_left_inj _).1 heq)
  rw [labels_endsOf, labels_endsOf]
  simp [List.Disjoint, hlow, hup, append_low_ne_append_up, (append_low_ne_append_up _ _).symm]

theorem ends_ofRanges (h : rs.vars.Nodup) :
    (ofRanges names rs).ends = rs.vars.flatMap fun v => endsOf names v (rs.get v) := by
  rw [ofRanges, Ranges.vars, List.flatMap_map]
  refine List.flatMap_congr fun e he => ?_
  rw [Ranges.get_of_mem_entries h he]

theorem nodup_labels (h : rs.vars.Nodup)
    (hnames : ∀ v ∈ rs, ∀ w ∈ rs, names.name v = names.name w → v = w) :
    ((ofRanges names rs).ends.map BoxEnd.label).Nodup := by
  rw [ends_ofRanges h, List.map_flatMap, List.nodup_flatMap]
  constructor
  · intro v _
    simp [labels_endsOf]
  · refine h.imp_of_mem ?_
    intro v w hv hw hne
    exact disjoint_labels (fun heq => hne (hnames v hv w hw heq)) _ _

theorem mem_ends_ofRanges (h : rs.vars.Nodup) :
    e ∈ (ofRanges names rs).ends ↔ ∃ v ∈ rs, e ∈ endsOf names v (rs.get v) := by
  rw [ends_ofRanges h, List.mem_flatMap]
  rfl

/-- **A bounding box is faithful, and its labels are unambiguous.** Names are interned one after the
other, and ranges are made by updates of variables that were handed out, each variable met at its
first update. Then the box has two ends for each variable of the ranges, in their order; no label
stands twice; the labels of a variable lead to the two ends of its interval, and no other label leads
anywhere. -/
theorem ofRanges_faithful (ss : List String) (hss : ss.eraseDups.length < UInt32.size)
    (us : List Update) (hus : ∀ u ∈ us, u.var ∈ (NameTable.empty.internAll ss).1) :
    let names := (NameTable.empty.internAll ss).2
    let rs := Ranges.empty.updateAll us
    let box := ofRanges names rs
    (rs.vars = (us.map Update.var).eraseDups ∧
        box.ends = rs.vars.flatMap fun v =>
          [⟨v, names.name v ++ "_low", (rs.get v).lower⟩,
            ⟨v, names.name v ++ "_up", (rs.get v).upper⟩]) ∧
      (box.ends.map BoxEnd.label).Nodup ∧
      (∀ v ∈ rs, box.get? (names.name v ++ "_low") = some (rs.get v).lower ∧
        box.get? (names.name v ++ "_up") = some (rs.get v).upper) ∧
      ∀ label, (∀ v ∈ rs, names.name v ++ "_low" ≠ label ∧ names.name v ++ "_up" ≠ label) →
        box.get? label = none := by
  intro names rs box
  have hvars : rs.vars = (us.map Update.var).eraseDups :=
    Ranges.vars_updateAll Ranges.nodup_empty us
  have hnodup : rs.vars.Nodup := Ranges.nodup_updateAll Ranges.nodup_empty us
  have hknown : ∀ v ∈ rs, v ∈ (NameTable.empty.internAll ss).1 := by
    intro v hv
    rw [Ranges.mem_iff, hvars, List.mem_eraseDups] at hv
    obtain ⟨u, hu, rfl⟩ := List.mem_map.1 hv
    exact hus u hu
  have hlabels : (box.ends.map BoxEnd.label).Nodup := by
    refine nodup_labels hnodup fun v hv w hw => ?_
    exact (NameTable.name_inj hss (hknown v hv) (hknown w hw)).1
  refine ⟨⟨hvars, ends_ofRanges hnodup⟩, hlabels, ?_, ?_⟩
  · intro v hv
    have hends : ∀ e ∈ endsOf names v (rs.get v), box.get? e.label = some e.value := by
      intro e he
      exact get?_label_of_mem hlabels ((mem_ends_ofRanges hnodup).2 ⟨v, hv, he⟩)
    exact ⟨hends _ List.mem_cons_self, hends _ (List.mem_cons_of_mem _ List.mem_cons_self)⟩
  · intro label hno
    rw [get?_eq_none_iff]
    intro e he
    obtain ⟨v, hv, hve⟩ := (mem_ends_ofRanges hnodup).1 he
    simp only [endsOf, List.mem_cons, List.not_mem_nil, or_false] at hve
    rcases hve with rfl | rfl
    · exact (hno v hv).1
    · exact (hno v hv).2

/-- The lower end of `x` has the label `x_low`, and so has no end of the variable named `x_low`. -/
theorem ofRanges_faithful_nested_names :
    let ss := ["x", "x_low", "x", "v0"]
    let us : List Update :=
      [.narrow ⟨1⟩ ⟨.fin 4, .fin 7⟩, .register ⟨0⟩, .narrow ⟨1⟩ ⟨.fin 9, .posInf⟩]
    let names := (NameTable.empty.internAll ss).2
    let box := ofRanges names (Ranges.empty.updateAll us)
    box.ends.map BoxEnd.label = ["x_low_low", "x_low_up", "x_low", "x_up"] ∧
      (box.ends.map BoxEnd.label).Nodup ∧
      (box.get? "x_low" = some .negInf ∧ box.get? "x_low_low" = some (.fin 9)) ∧
      box.get? "v0_low" = none := by
  intro ss us names box
  have hss : ss.eraseDups.length < UInt32.size := by decide
  have hus : ∀ u ∈ us, u.var ∈ (NameTable.empty.internAll ss).1 := by decide
  obtain ⟨-, hlabels, hget, hno⟩ := ofRanges_faithful ss hss us hus
  exact ⟨by decide, hlabels, ⟨(hget ⟨0⟩ (by decide)).1, (hget ⟨1⟩ (by decide)).1⟩,
    hno "v0_low" (by decide)⟩

end BoundingBox

end IntervalPruning
