import IntervalPruning.Formula.Text

/-!
# IntervalPruning.Proofs.Formula.Operands

A term is read back from its text, whatever follows (`Term.chars_append_inj`). Only a digit must not
follow, since the digits of a number do not say themselves where they end (`Stops`).

The first character tells what kind of operand it is (`Term.lead`), but for one doubt: behind an opening
parenthesis, a minus sign stands before a negated term or belongs to a negative number. Then the
character behind the operand decides (`Term.minus_append_ne`).
-/

namespace IntervalPruning

variable {r r' : List Char}

/-! ## Numbers -/

/-- The first character, with `0` for any digit. -/
def lead? (cs : List Char) : Option Char := cs.head?.map fun c => if c.isDigit then '0' else c

/-- A number that stands before does not go on here. -/
def Stops (r : List Char) : Prop := lead? r ≠ some '0'

theorem lead?_cons {c : Char} (hc : c.isDigit = false) (cs : List Char) :
    lead? (c :: cs) = some c := by
  simp [lead?, hc]

theorem lead_unique {cs cs' : List Char} {x y : Char} (hx : lead? cs = some x)
    (hy : lead? cs' = some y) (h : cs = cs') : x = y := by
  rw [h, hy] at hx
  exact (Option.some.inj hx).symm

theorem stops_cons {c : Char} (hc : c.isDigit = false) : Stops (c :: r) := by
  intro h
  rw [lead?_cons hc] at h
  cases h
  cases hc

theorem lead?_digits (n : Nat) (r : List Char) : lead? (Nat.toDigits 10 n ++ r) = some '0' := by
  obtain ⟨c, cs, hcs⟩ := List.exists_cons_of_ne_nil (Nat.toDigits_ne_nil (n := n) (b := 10))
  have hc : c.isDigit = true :=
    Nat.isDigit_of_mem_toDigits (n := n) (by omega) (Nat.le_refl 10) (by simp [hcs])
  simp [hcs, lead?, hc]

theorem takeWhile_digits (hr : Stops r) (n : Nat) :
    (Nat.toDigits 10 n ++ r).takeWhile Char.isDigit = Nat.toDigits 10 n := by
  have hrest : r.takeWhile Char.isDigit = [] := by
    cases r with
    | nil => rfl
    | cons c cs =>
      refine List.takeWhile_cons_of_neg fun hc => hr ?_
      simp [lead?, hc]
  rw [List.takeWhile_append_of_pos fun _ => Nat.isDigit_of_mem_toDigits (by omega) (Nat.le_refl 10),
    hrest, List.append_nil]

theorem digits_append_inj {n m : Nat} (hr : Stops r) (hr' : Stops r')
    (h : Nat.toDigits 10 n ++ r = Nat.toDigits 10 m ++ r') : n = m ∧ r = r' := by
  have hdigits : Nat.toDigits 10 n = Nat.toDigits 10 m := by
    rw [← takeWhile_digits hr n, h, takeWhile_digits hr' m]
  rw [hdigits] at h
  refine ⟨?_, List.append_cancel_left h⟩
  rw [← Nat.ofDigitChars_ten_toDigits (n := n), hdigits, Nat.ofDigitChars_ten_toDigits]

/-! ## Operators -/

theorem Arith.symbol_append_inj {op op' : Arith}
    (h : op.symbol.toList ++ ' ' :: r = op'.symbol.toList ++ ' ' :: r') : op = op' ∧ r = r' := by
  cases op <;> cases op' <;> simp_all [symbol]

theorem Rel.text_append_inj {ρ ρ' : Rel}
    (h : ρ.text.toList ++ ' ' :: r = ρ'.text.toList ++ ' ' :: r') : ρ = ρ' ∧ r = r' := by
  cases ρ <;> cases ρ' <;> simp_all [text]

theorem Rel.text_append_ne_symbol_append (ρ : Rel) (op : Arith) :
    ρ.text.toList ++ r ≠ op.symbol.toList ++ r' := by
  cases ρ <;> cases op <;> simp [text, Arith.symbol]

/-! ## Operands -/

namespace Term

variable {s t u : Term}

/-- The text beside an operator, with the variables by number. -/
def chars (t : Term) : List Char := (t.operandText Var.text).toList

theorem chars_var (v : Var) : (var v).chars = 'v' :: Nat.toDigits 10 v.id.toNat := by
  simp [chars, operandText, enclose, text, Var.text]

theorem chars_ofNat (n : Nat) : (const (.ofNat n)).chars = Nat.toDigits 10 n := by
  have hrepr : (Int.ofNat n).repr = n.repr := rfl
  simp only [chars, operandText, enclose, text, Int.toString_eq_repr, hrepr, Nat.toList_repr]

theorem chars_negSucc (n : Nat) : (const (.negSucc n)).chars = '-' :: Nat.toDigits 10 (n + 1) := by
  have hrepr : (Int.negSucc n).repr = "-" ++ (n + 1).repr := rfl
  simp [chars, operandText, enclose, text, hrepr]

theorem chars_neg (t : Term) : (neg t).chars = '(' :: '-' :: (t.chars ++ [')']) := by
  simp [chars, operandText, enclose, text]

theorem chars_bin (op : Arith) (s t : Term) :
    (bin op s t).chars =
      '(' :: (s.chars ++ ' ' :: (op.symbol.toList ++ ' ' :: (t.chars ++ [')']))) := by
  simp [chars, operandText, enclose, text]

/-- The first character of an operand, with `0` for any digit. -/
def lead : Term → Char
  | var _ => 'v'
  | const (.ofNat _) => '0'
  | const (.negSucc _) => '-'
  | neg _ => '('
  | bin _ _ _ => '('

theorem lead?_chars (t : Term) (r : List Char) : lead? (t.chars ++ r) = some t.lead := by
  cases t with
  | var v =>
    rw [chars_var]
    exact lead?_cons rfl _
  | const n =>
    cases n with
    | ofNat n =>
      rw [chars_ofNat]
      exact lead?_digits n r
    | negSucc n =>
      rw [chars_negSucc]
      exact lead?_cons rfl _
  | neg t =>
    rw [chars_neg]
    exact lead?_cons rfl _
  | bin op s t =>
    rw [chars_bin]
    exact lead?_cons rfl _

theorem lead_eq (h : s.chars ++ r = t.chars ++ r') : s.lead = t.lead :=
  lead_unique (lead?_chars s r) (lead?_chars t r') h

theorem lead_eq_of_cons {c : Char} (hc : c.isDigit = false) (h : t.chars ++ r = c :: r') :
    t.lead = c :=
  lead_unique (lead?_chars t r) (lead?_cons hc r') h

theorem eq_var_of_lead (h : t.lead = 'v') : ∃ v, t = var v := by
  cases t using lead.fun_cases <;> simp_all [lead]

theorem eq_ofNat_of_lead (h : t.lead = '0') : ∃ n, t = const (.ofNat n) := by
  cases t using lead.fun_cases with
  | case2 n => exact ⟨n, rfl⟩
  | _ => simp [lead] at h

theorem eq_negSucc_of_lead (h : t.lead = '-') : ∃ n, t = const (.negSucc n) := by
  cases t using lead.fun_cases <;> simp_all [lead]

theorem compound_of_lead (h : t.lead = '(') : (∃ u, t = neg u) ∨ ∃ op a b, t = bin op a b := by
  cases t using lead.fun_cases <;> simp_all [lead]

theorem lead_ne (t : Term) : t.lead ≠ 't' ∧ t.lead ≠ 'f' ∧ t.lead ≠ '!' ∧ t.lead ≠ ')' := by
  cases t using lead.fun_cases <;> simp [lead]

/-- What can stand behind a parenthesis that opens an operand. -/
theorem paren_cases {cs : List Char} (h : s.chars ++ r = '(' :: cs) :
    (∃ (u : Term) (r' : List Char), cs = '-' :: (u.chars ++ ')' :: r')) ∨
      ∃ (a : Term) (op : Arith) (r' : List Char),
        cs = a.chars ++ ' ' :: (op.symbol.toList ++ r') := by
  rcases compound_of_lead (lead_eq_of_cons rfl h) with ⟨u, rfl⟩ | ⟨op, a, b, rfl⟩
  · simp only [chars_neg, List.cons_append, List.append_assoc, List.nil_append, List.cons.injEq,
      true_and] at h
    exact Or.inl ⟨u, r, h.symm⟩
  · simp only [chars_bin, List.cons_append, List.append_assoc, List.nil_append, List.cons.injEq,
      true_and] at h
    exact Or.inr ⟨a, op, _, h.symm⟩

theorem chars_append_ne_digits (u : Term) (n : Nat) :
    u.chars ++ ')' :: r ≠ Nat.toDigits 10 n ++ ' ' :: r' := by
  rw [← chars_ofNat]
  intro h
  obtain ⟨m, rfl⟩ := eq_ofNat_of_lead (lead_eq h)
  rw [chars_ofNat, chars_ofNat] at h
  have hrest := (digits_append_inj (stops_cons rfl) (stops_cons rfl) h).2
  simp at hrest

/-- What is negated is followed by a parenthesis, a first operand by a blank. -/
theorem minus_append_ne (u s : Term) : '-' :: (u.chars ++ ')' :: r) ≠ s.chars ++ ' ' :: r' := by
  intro h
  obtain ⟨n, rfl⟩ := eq_negSucc_of_lead (lead_eq_of_cons rfl h.symm)
  rw [chars_negSucc] at h
  exact chars_append_ne_digits u (n + 1) (List.cons.inj h).2

theorem const_append_inj {n m : Int} (hr : Stops r) (hr' : Stops r')
    (h : (const n).chars ++ r = (const m).chars ++ r') : n = m ∧ r = r' := by
  have hlead := lead_eq h
  cases n with
  | ofNat n =>
    cases m with
    | ofNat m =>
      rw [chars_ofNat, chars_ofNat] at h
      obtain ⟨rfl, hrest⟩ := digits_append_inj hr hr' h
      exact ⟨rfl, hrest⟩
    | negSucc m => simp [lead] at hlead
  | negSucc n =>
    cases m with
    | ofNat m => simp [lead] at hlead
    | negSucc m =>
      rw [chars_negSucc, chars_negSucc] at h
      obtain ⟨hnm, hrest⟩ := digits_append_inj hr hr' (List.cons.inj h).2
      obtain rfl : n = m := by omega
      exact ⟨rfl, hrest⟩

/-- A term is read back from its text, and so is what follows. -/
theorem chars_append_inj (hr : Stops r) (hr' : Stops r') (h : s.chars ++ r = t.chars ++ r') :
    s = t ∧ r = r' := by
  have hlead := lead_eq h
  induction s generalizing t r r' with
  | var v =>
    obtain ⟨w, rfl⟩ := eq_var_of_lead hlead.symm
    simp only [chars_var, List.cons_append, List.cons.injEq, true_and] at h
    obtain ⟨hid, hrest⟩ := digits_append_inj hr hr' h
    obtain ⟨v⟩ := v
    obtain ⟨w⟩ := w
    exact ⟨congrArg (fun id => var ⟨id⟩) (UInt32.toNat_inj.1 hid), hrest⟩
  | const n =>
    obtain ⟨m, rfl⟩ : ∃ m, t = const m := by
      cases n with
      | ofNat n => exact (eq_ofNat_of_lead hlead.symm).imp' _ fun _ => id
      | negSucc n => exact (eq_negSucc_of_lead hlead.symm).imp' _ fun _ => id
    obtain ⟨rfl, hrest⟩ := const_append_inj hr hr' h
    exact ⟨rfl, hrest⟩
  | neg s ih =>
    simp only [chars_neg, List.cons_append, List.append_assoc, List.nil_append] at h
    rcases compound_of_lead hlead.symm with ⟨t, rfl⟩ | ⟨op, a, b, rfl⟩
    · simp only [chars_neg, List.cons_append, List.append_assoc, List.nil_append, List.cons.injEq,
        true_and] at h
      obtain ⟨rfl, hrest⟩ := ih (stops_cons rfl) (stops_cons rfl) h (lead_eq h)
      exact ⟨rfl, (List.cons.inj hrest).2⟩
    · simp only [chars_bin, List.cons_append, List.append_assoc, List.cons.injEq, true_and] at h
      exact absurd h (minus_append_ne s a)
  | bin op a b iha ihb =>
    simp only [chars_bin, List.cons_append, List.append_assoc, List.nil_append] at h
    rcases compound_of_lead hlead.symm with ⟨t, rfl⟩ | ⟨op', a', b', rfl⟩
    · simp only [chars_neg, List.cons_append, List.append_assoc, List.nil_append, List.cons.injEq,
        true_and] at h
      exact absurd h.symm (minus_append_ne t a)
    · simp only [chars_bin, List.cons_append, List.append_assoc, List.nil_append, List.cons.injEq,
        true_and] at h
      obtain ⟨rfl, hafter⟩ := iha (stops_cons rfl) (stops_cons rfl) h (lead_eq h)
      obtain ⟨rfl, hright⟩ := Arith.symbol_append_inj (List.cons.inj hafter).2
      obtain ⟨rfl, hrest⟩ := ihb (stops_cons rfl) (stops_cons rfl) hright (lead_eq hright)
      exact ⟨rfl, (List.cons.inj hrest).2⟩

end Term

end IntervalPruning
