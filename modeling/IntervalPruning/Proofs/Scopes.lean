import IntervalPruning.Scopes
import Mathlib.Data.List.Forall2

/-!
# IntervalPruning.Proofs.Scopes

Two stacks of scopes side by side. `Forall₂ R s t` says that they have the same shape (as many
scopes, and as many items in each) and that the items at each position are in the relation `R`.
Adding related items, opening a scope and closing one keep it so.

`drop` closes the innermost scope whatever there is around it: without an outer scope, the items of
the only one are gone and an empty one is left.
-/

namespace IntervalPruning

namespace Scopes

variable {α β : Type}

def drop (s : Scopes α) : Scopes α := s.pop?.getD empty

def map (f : α → β) (s : Scopes α) : Scopes β := ⟨s.current.map f, s.outer.map (List.map f)⟩

@[simp] theorem toList_map (f : α → β) (s : Scopes α) : (s.map f).toList = s.toList.map f := by
  simp [toList, map, List.map_flatten]

theorem map_add (f : α → β) (s : Scopes α) (a : α) : (s.add a).map f = (s.map f).add (f a) := by
  simp [map, add]

theorem map_push (f : α → β) (s : Scopes α) : s.push.map f = (s.map f).push := rfl

theorem map_drop (f : α → β) (s : Scopes α) : s.drop.map f = (s.map f).drop := by
  obtain ⟨current, outer⟩ := s
  cases outer with
  | nil => rfl
  | cons c cs => rfl

theorem isSome_pop_map (f : α → β) (s : Scopes α) : (s.map f).pop?.isSome = s.pop?.isSome := by
  obtain ⟨current, outer⟩ := s
  cases outer with
  | nil => rfl
  | cons c cs => rfl

theorem drop_of_pop {s t : Scopes α} (h : s.pop? = some t) : s.drop = t := by
  rw [drop, h, Option.getD_some]

/-- An item goes with the scope that is closed, or stays. -/
theorem mem_toList_drop {s : Scopes α} {a : α} (h : a ∈ s.toList) :
    a ∈ s.current ∨ a ∈ s.drop.toList := by
  obtain ⟨current, outer⟩ := s
  cases outer with
  | nil => exact Or.inl (by simpa [toList] using h)
  | cons c cs =>
    have hmem : a ∈ (⟨c, cs⟩ : Scopes α).toList ∨ a ∈ current := by
      simpa [toList, or_assoc] using h
    exact hmem.symm

structure Forall₂ (R : α → β → Prop) (s : Scopes α) (t : Scopes β) : Prop where
  current : List.Forall₂ R s.current t.current
  outer : List.Forall₂ (List.Forall₂ R) s.outer t.outer

section Forall₂

variable {R S : α → β → Prop} {s : Scopes α} {t : Scopes β}

theorem Forall₂.imp (h : s.Forall₂ R t) (hRS : ∀ a b, R a b → S a b) : s.Forall₂ S t :=
  ⟨h.current.imp hRS, h.outer.imp fun _ _ hl => hl.imp hRS⟩

theorem Forall₂.add (h : s.Forall₂ R t) {a : α} {b : β} (hab : R a b) :
    (s.add a).Forall₂ R (t.add b) :=
  ⟨List.rel_append h.current (.cons hab .nil), h.outer⟩

theorem Forall₂.push (h : s.Forall₂ R t) : s.push.Forall₂ R t.push :=
  ⟨.nil, .cons h.current h.outer⟩

theorem Forall₂.drop (h : s.Forall₂ R t) : s.drop.Forall₂ R t.drop := by
  obtain ⟨scur, sout⟩ := s
  obtain ⟨tcur, tout⟩ := t
  cases h.outer with
  | nil => exact ⟨.nil, .nil⟩
  | cons hc ho => exact ⟨hc, ho⟩

/-- Of two stacks of the same shape, both can be closed or none. -/
theorem Forall₂.isSome_pop (h : s.Forall₂ R t) : s.pop?.isSome = t.pop?.isSome := by
  obtain ⟨scur, sout⟩ := s
  obtain ⟨tcur, tout⟩ := t
  cases h.outer with
  | nil => rfl
  | cons _ _ => rfl

theorem forall₂_map_right {γ : Type} {R : α → γ → Prop} {f : β → γ} :
    s.Forall₂ R (t.map f) ↔ s.Forall₂ (fun a b => R a (f b)) t := by
  have hlist : ∀ (l : List α) (m : List β),
      List.Forall₂ R l (m.map f) ↔ List.Forall₂ (fun a b => R a (f b)) l m :=
    fun l m => List.forall₂_map_right_iff
  constructor
  · rintro ⟨hc, ho⟩
    exact ⟨(hlist _ _).1 hc, (List.forall₂_map_right_iff.1 ho).imp fun _ _ => (hlist _ _).1⟩
  · rintro ⟨hc, ho⟩
    exact ⟨(hlist _ _).2 hc, List.forall₂_map_right_iff.2 (ho.imp fun _ _ => (hlist _ _).2)⟩

theorem forall₂_map_self {R : α → β → Prop} {f : α → β} (hR : ∀ a, R a (f a)) (s : Scopes α) :
    s.Forall₂ R (s.map f) := by
  have hlist : ∀ l : List α, List.Forall₂ R l (l.map f) := fun l =>
    List.forall₂_map_right_iff.2 (List.forall₂_same.2 fun a _ => hR a)
  exact ⟨hlist _, List.forall₂_map_right_iff.2 (List.forall₂_same.2 fun l _ => hlist l)⟩

theorem Forall₂.toList (h : s.Forall₂ R t) : List.Forall₂ R s.toList t.toList := by
  refine List.rel_append (List.rel_flatten (List.rel_reverse h.outer)) h.current

theorem Forall₂.exists_mem_left (h : s.Forall₂ R t) {b : β} (hb : b ∈ t.toList) :
    ∃ a ∈ s.toList, R a b := by
  have hlist := h.toList
  generalize s.toList = l at hlist ⊢
  generalize t.toList = m at hlist hb
  induction hlist with
  | nil => cases hb
  | @cons a b' l m hab _ ih =>
    rcases List.mem_cons.1 hb with rfl | hb
    · exact ⟨a, List.mem_cons_self, hab⟩
    · obtain ⟨a', ha', hab'⟩ := ih hb
      exact ⟨a', List.mem_cons_of_mem a ha', hab'⟩

end Forall₂

end Scopes

end IntervalPruning
