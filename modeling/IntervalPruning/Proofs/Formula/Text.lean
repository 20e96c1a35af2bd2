import IntervalPruning.Proofs.Formula.Nodes
import IntervalPruning.Proofs.Formula.Operands
import Mathlib.Data.List.Forall2

/-!
# IntervalPruning.Proofs.Formula.Text

What the text of a formula says about the formula. A connective puts its sign between arguments, and so
one with at most one argument does not show which it is (`Formula.Alike`). All else is read back from the
text, and so is what follows it (`Formula.readsBack`).

A parenthesis may open a connective or an operand of a comparison. They are told apart behind the first
argument or operand: no argument of a connective is followed by an arithmetic operator
(`Formula.paren_append_ne`).
-/

namespace IntervalPruning

namespace Formula

/-- The same tree, but for connectives that have nothing to connect. -/
inductive Alike : Formula → Formula → Prop where
  | const (b : Bool) : Alike (.const b) (.const b)
  | cmp (r : Rel) (s t : Term) : Alike (.cmp r s t) (.cmp r s t)
  | not {f g : Formula} (h : Alike f g) : Alike (.not f) (.not g)
  | conn {c d : Connective} {fs gs : List Formula} (hsign : fs.length ≤ 1 ∨ c = d)
      (hargs : List.Forall₂ Alike fs gs) : Alike (.conn c fs) (.conn d gs)

variable {f g : Formula} {fs gs : List Formula} {c d : Connective} {r r' : List Char}

/-! ## From the tree to the text -/

theorem map_eq_of_forall₂ {α : Type} {R : Formula → Formula → Prop} {u : Formula → α}
    (h : List.Forall₂ R fs gs) (hR : ∀ f ∈ fs, ∀ g, R f g → u f = u g) : fs.map u = gs.map u := by
  induction h with
  | nil => rfl
  | cons hfg _ ih =>
    rw [List.map_cons, List.map_cons, hR _ List.mem_cons_self _ hfg,
      ih fun f hf => hR f (List.mem_cons_of_mem _ hf)]

theorem intercalate_of_length_le_one {ss : List String} (h : ss.length ≤ 1) (sep sep' : String) :
    sep.intercalate ss = sep'.intercalate ss := by
  cases ss with
  | nil => simp
  | cons s ss =>
    cases ss with
    | nil => simp
    | cons _ _ => simp at h

theorem Alike.text_eq (h : f.Alike g) (name : Var → String) : f.text name = g.text name := by
  induction f generalizing g with
  | const b => cases h; rfl
  | cmp r s t => cases h; rfl
  | not f ih =>
    cases h with
    | not h => rw [text, text, ih h]
  | conn c fs ih =>
    cases h with
    | @conn _ d _ gs hsign hargs =>
      have hmap : fs.map (text name) = gs.map (text name) :=
        map_eq_of_forall₂ hargs fun f hf g => ih f hf
      rw [text, text, textArgs_eq_map, textArgs_eq_map, hmap]
      rcases hsign with hone | rfl
      · have hlength : (gs.map (text name)).length ≤ 1 := by
          rw [List.length_map, ← hargs.length_eq]
          exact hone
        rw [intercalate_of_length_le_one hlength c.sign d.sign]
      · rfl

theorem eval_conn_congr {env : Var → Int} (h : fs.map (eval env) = gs.map (eval env)) :
    (conn c fs).eval env = (conn c gs).eval env := by
  have hall : ∀ hs : List Formula, hs.all (·.eval env) = (hs.map (eval env)).all id := fun hs => by
    rw [List.all_map]
    rfl
  have hany : ∀ hs : List Formula, hs.any (·.eval env) = (hs.map (eval env)).any id := fun hs => by
    rw [List.any_map]
    rfl
  cases c with
  | and => rw [eval_and, eval_and, hall, hall, h]
  | or => rw [eval_or, eval_or, hany, hany, h]

theorem eval_conn_singleton (c : Connective) (f : Formula) (env : Var → Int) :
    (conn c [f]).eval env = f.eval env := by
  cases c with
  | and => simp [eval_and]
  | or => simp [eval_or]

/-- With something to connect everywhere, trees that are alike mean the same. -/
theorem Alike.eval_eq (h : f.Alike g) (hempty : ∀ c, .conn c [] ∉ f.nodes) (env : Var → Int) :
    f.eval env = g.eval env := by
  induction f generalizing g with
  | const b => cases h; rfl
  | cmp r s t => cases h; rfl
  | not f ih =>
    cases h with
    | not h => rw [eval, eval, ih h fun c hc => hempty c (by simp [nodes, hc])]
  | conn c fs ih =>
    cases h with
    | @conn _ d _ gs hsign hargs =>
      have hmap : fs.map (eval env) = gs.map (eval env) :=
        map_eq_of_forall₂ hargs fun f hf g h => ih f hf h fun c hc =>
          hempty c (mem_nodes_conn.2 (Or.inr ⟨f, hf, hc⟩))
      rcases hsign with hone | rfl
      · cases hargs with
        | nil => exact absurd (mem_nodes_self _) (hempty c)
        | cons _ hrest =>
          cases hrest with
          | nil =>
            rw [eval_conn_singleton, eval_conn_singleton]
            exact (List.cons.inj hmap).1
          | cons _ _ => simp at hone
      · exact eval_conn_congr hmap

/-! ## From the text to the tree -/

/-- The text of a formula, with the variables by number. -/
def chars (f : Formula) : List Char := (f.text Var.text).toList

/-- The arguments behind the first. -/
def tailChars (c : Connective) (fs : List Formula) : List Char :=
  fs.flatMap fun f => c.sign.toList ++ f.chars

theorem chars_true : (const true).chars = ['t', 'r', 'u', 'e'] := rfl

theorem chars_false : (const false).chars = ['f', 'a', 'l', 's', 'e'] := rfl

theorem chars_cmp (ρ : Rel) (s t : Term) :
    (cmp ρ s t).chars = s.chars ++ ' ' :: (ρ.text.toList ++ ' ' :: t.chars) := by
  simp [chars, text, Term.chars]

theorem chars_not (f : Formula) : (not f).chars = '!' :: '(' :: (f.chars ++ [')']) := by
  simp [chars, text]

theorem chars_conn_nil_append (c : Connective) (r : List Char) :
    (conn c []).chars ++ r = '(' :: ')' :: r := by
  simp [chars, text, textArgs]

theorem toList_intercalate_cons (sep s : String) (ss : List String) :
    (sep.intercalate (s :: ss)).toList =
      s.toList ++ ss.flatMap fun t => sep.toList ++ t.toList := by
  induction ss generalizing s with
  | nil => simp
  | cons t ss ih => simp [String.intercalate_cons_cons, ih]

theorem chars_conn_cons_append (c : Connective) (f : Formula) (fs : List Formula) (r : List Char) :
    (conn c (f :: fs)).chars ++ r = '(' :: (f.chars ++ (tailChars c fs ++ ')' :: r)) := by
  simp only [chars, text, textArgs_eq_map, List.map_cons, String.toList_append,
    toList_intercalate_cons, List.flatMap_map, List.append_assoc]
  rfl

/-- The first character of a formula, with `0` for any digit. -/
def lead : Formula → Char
  | const true => 't'
  | const false => 'f'
  | cmp _ s _ => s.lead
  | not _ => '!'
  | conn _ _ => '('

theorem lead?_chars (f : Formula) (r : List Char) : lead? (f.chars ++ r) = some f.lead := by
  cases f with
  | const b =>
    cases b with
    | true =>
      rw [chars_true]
      exact lead?_cons rfl _
    | false =>
      rw [chars_false]
      exact lead?_cons rfl _
  | cmp ρ s t =>
    rw [chars_cmp, List.append_assoc]
    exact Term.lead?_chars s _
  | not f =>
    rw [chars_not]
    exact lead?_cons rfl _
  | conn c fs =>
    cases fs with
    | nil =>
      rw [chars_conn_nil_append]
      exact lead?_cons rfl _
    | cons f fs =>
      rw [chars_conn_cons_append]
      exact lead?_cons rfl _

theorem lead_eq (h : f.chars ++ r = g.chars ++ r') : f.lead = g.lead :=
  lead_unique (lead?_chars f r) (lead?_chars g r') h

theorem lead_eq_of_term {t : Term} (h : f.chars ++ r = t.chars ++ r') : f.lead = t.lead :=
  lead_unique (lead?_chars f r) (Term.lead?_chars t r') h

theorem lead_eq_of_cons {x : Char} (hx : x.isDigit = false) (h : f.chars ++ r = x :: r') :
    f.lead = x :=
  lead_unique (lead?_chars f r) (lead?_cons hx r') h

theorem eq_const_of_lead {b : Bool} (h : g.lead = (const b).lead) : g = const b := by
  cases g with
  | const b' => cases b <;> cases b' <;> simp [lead] at h ⊢
  | cmp ρ s t => cases b <;> simp [lead, s.lead_ne] at h
  | not g => cases b <;> simp [lead] at h
  | conn d gs => cases b <;> simp [lead] at h

theorem exists_eq_not_of_lead (h : g.lead = '!') : ∃ g', g = not g' := by
  cases g with
  | const b => cases b <;> simp [lead] at h
  | cmp ρ s t => simp [lead, s.lead_ne] at h
  | not g => exact ⟨g, rfl⟩
  | conn d gs => simp [lead] at h

theorem append_ne_close (f : Formula) : f.chars ++ r ≠ ')' :: r' := by
  intro h
  have hlead := lead_eq_of_cons rfl h
  cases f using lead.fun_cases <;> simp [lead, Term.lead_ne] at hlead

theorem conn_append_ne (hargs : ∀ f ∈ fs, ∀ (s : Term) (r r' : List Char),
    '(' :: (f.chars ++ r) ≠ s.chars ++ r') (s : Term) : (conn c fs).chars ++ r ≠ s.chars ++ r' := by
  intro h
  cases fs with
  | nil =>
    rw [chars_conn_nil_append] at h
    rcases Term.paren_cases h.symm with ⟨u, rest, h⟩ | ⟨a, op, rest, h⟩
    · simp at h
    · exact a.lead_ne.2.2.2 (Term.lead_eq_of_cons rfl h.symm)
  | cons f fs =>
    rw [chars_conn_cons_append] at h
    exact hargs f List.mem_cons_self s _ _ h

theorem paren_append_ne_of_lead (hf : ∀ t : Term, t.lead ≠ f.lead) (s : Term) (r r' : List Char) :
    '(' :: (f.chars ++ r) ≠ s.chars ++ r' := by
  intro h
  rcases Term.paren_cases h.symm with ⟨u, rest, h⟩ | ⟨a, op, rest, h⟩
  · have hlead := lead_eq_of_cons rfl h
    exact hf (.const (.negSucc 0)) hlead.symm
  · exact hf a (lead_eq_of_term h).symm

/-- A parenthesis in front of a formula does not open an operand. -/
theorem paren_append_ne (f : Formula) : ∀ (s : Term) (r r' : List Char),
    '(' :: (f.chars ++ r) ≠ s.chars ++ r' := by
  induction f with
  | const b =>
    refine paren_append_ne_of_lead fun t => ?_
    cases b with
    | true => exact t.lead_ne.1
    | false => exact t.lead_ne.2.1
  | cmp ρ x y =>
    intro s r r' h
    rw [chars_cmp, List.append_assoc, List.cons_append] at h
    rcases Term.paren_cases h.symm with ⟨u, rest, h⟩ | ⟨a, op, rest, h⟩
    · exact Term.minus_append_ne u x h.symm
    · obtain ⟨-, hafter⟩ := Term.chars_append_inj (stops_cons rfl) (stops_cons rfl) h
      rw [List.append_assoc] at hafter
      exact Rel.text_append_ne_symbol_append ρ op (List.cons.inj hafter).2
  | not f _ => exact paren_append_ne_of_lead fun t => t.lead_ne.2.2.1
  | conn c fs ih =>
    intro s r r' h
    rcases Term.paren_cases h.symm with ⟨u, rest, h⟩ | ⟨a, op, rest, h⟩
    · have hlead := lead_eq_of_cons rfl h
      simp [lead] at hlead
    · exact conn_append_ne ih a h

theorem tail_cons_append (c : Connective) (f : Formula) (fs : List Formula) (r : List Char) :
    tailChars c (f :: fs) ++ r = c.sign.toList ++ (f.chars ++ (tailChars c fs ++ r)) := by
  simp [tailChars]

theorem stops_tail (c : Connective) (fs : List Formula) (r : List Char) :
    Stops (tailChars c fs ++ ')' :: r) := by
  cases fs with
  | nil => exact stops_cons rfl
  | cons f fs => cases c <;> exact stops_cons rfl

theorem sign_append_inj (h : c.sign.toList ++ r = d.sign.toList ++ r') : c = d ∧ r = r' := by
  cases c <;> cases d <;> simp_all [Connective.sign]

theorem sign_append_ne (c : Connective) : c.sign.toList ++ r ≠ ')' :: r' := by
  cases c <;> simp [Connective.sign]

/-- Wherever a number would stop behind it, the text determines the formula and what follows. -/
def ReadsBack (f : Formula) : Prop :=
  ∀ {g : Formula} {r r' : List Char}, Stops r → Stops r' → f.chars ++ r = g.chars ++ r' →
    f.Alike g ∧ r = r'

theorem tail_append_inj (hfs : ∀ f ∈ fs, ReadsBack f)
    (h : tailChars c fs ++ ')' :: r = tailChars d gs ++ ')' :: r') :
    List.Forall₂ Alike fs gs ∧ (fs = [] ∨ c = d) ∧ r = r' := by
  induction fs generalizing gs with
  | nil =>
    cases gs with
    | nil => exact ⟨.nil, Or.inl rfl, (List.cons.inj h).2⟩
    | cons g gs =>
      rw [tail_cons_append] at h
      exact absurd h.symm (sign_append_ne d)
  | cons f fs ih =>
    rw [tail_cons_append] at h
    cases gs with
    | nil => exact absurd h (sign_append_ne c)
    | cons g gs =>
      rw [tail_cons_append] at h
      obtain ⟨hsign, hargs⟩ := sign_append_inj h
      obtain ⟨hfg, htail⟩ :=
        hfs f List.mem_cons_self (stops_tail c fs r) (stops_tail d gs r') hargs
      obtain ⟨htails, -, hrest⟩ := ih (fun f hf => hfs f (List.mem_cons_of_mem _ hf)) htail
      exact ⟨.cons hfg htails, Or.inr hsign, hrest⟩

theorem conn_append_inj (hfs : ∀ f ∈ fs, ReadsBack f)
    (h : (conn c fs).chars ++ r = (conn d gs).chars ++ r') :
    (conn c fs).Alike (conn d gs) ∧ r = r' := by
  cases fs with
  | nil =>
    rw [chars_conn_nil_append] at h
    cases gs with
    | nil =>
      rw [chars_conn_nil_append] at h
      exact ⟨.conn (Or.inl (Nat.zero_le 1)) .nil, (List.cons.inj (List.cons.inj h).2).2⟩
    | cons g gs =>
      rw [chars_conn_cons_append] at h
      exact absurd (List.cons.inj h).2.symm g.append_ne_close
  | cons f fs =>
    rw [chars_conn_cons_append] at h
    cases gs with
    | nil =>
      rw [chars_conn_nil_append] at h
      exact absurd (List.cons.inj h).2 f.append_ne_close
    | cons g gs =>
      rw [chars_conn_cons_append] at h
      obtain ⟨hfg, htail⟩ := hfs f List.mem_cons_self (stops_tail c fs r) (stops_tail d gs r')
        (List.cons.inj h).2
      obtain ⟨htails, hsign, hrest⟩ :=
        tail_append_inj (fun f hf => hfs f (List.mem_cons_of_mem _ hf)) htail
      refine ⟨.conn ?_ (.cons hfg htails), hrest⟩
      exact hsign.imp_left fun hnil => by simp [hnil]

/-- A formula is read back from its text, but for signs that do not show, and so is what follows. -/
theorem readsBack (f : Formula) : ReadsBack f := by
  induction f with
  | const b =>
    intro g r r' hr hr' h
    obtain rfl := eq_const_of_lead (lead_eq h).symm
    exact ⟨.const b, List.append_cancel_left h⟩
  | cmp ρ s t =>
    intro g r r' hr hr' h
    have hlead := lead_eq h
    cases g with
    | cmp ρ' s' t' =>
      simp only [chars_cmp, List.append_assoc, List.cons_append] at h
      obtain ⟨rfl, hafter⟩ := Term.chars_append_inj (stops_cons rfl) (stops_cons rfl) h
      obtain ⟨rfl, hright⟩ := Rel.text_append_inj (List.cons.inj hafter).2
      obtain ⟨rfl, hrest⟩ := Term.chars_append_inj hr hr' hright
      exact ⟨.cmp ρ s t, hrest⟩
    | conn d gs =>
      rw [chars_cmp, List.append_assoc] at h
      exact absurd h.symm (conn_append_ne (fun f _ => paren_append_ne f) s)
    | const b => cases b <;> simp [lead, s.lead_ne] at hlead
    | not g => simp [lead, s.lead_ne] at hlead
  | not f ih =>
    intro g r r' hr hr' h
    obtain ⟨g, rfl⟩ := exists_eq_not_of_lead (lead_eq h).symm
    simp only [chars_not, List.append_assoc, List.cons_append, List.nil_append, List.cons.injEq,
      true_and] at h
    obtain ⟨hfg, hrest⟩ := ih (stops_cons rfl) (stops_cons rfl) h
    exact ⟨.not hfg, (List.cons.inj hrest).2⟩
  | conn c fs ih =>
    intro g r r' hr hr' h
    have hlead := lead_eq h
    cases g with
    | conn d gs => exact conn_append_inj ih h
    | cmp ρ s t =>
      rw [chars_cmp, List.append_assoc] at h
      exact absurd h (conn_append_ne (fun f _ => paren_append_ne f) s)
    | const b => cases b <;> simp [lead] at hlead
    | not g => simp [lead] at hlead

theorem alike_of_text_eq (h : f.text Var.text = g.text Var.text) : f.Alike g := by
  have hchars : f.chars = g.chars := congrArg String.toList h
  have hnil : Stops [] := by simp [Stops, lead?]
  exact (readsBack f hnil hnil (by rw [hchars])).1

/-- **The text of a formula leaves no doubt.** Two formulas have the same text exactly if they are the
same tree, but for connectives with at most one argument. Unless one of these has no argument at all,
they also mean the same. -/
theorem text_eq_iff_alike (f g : Formula) :
    (f.text Var.text = g.text Var.text ↔ f.Alike g) ∧
      (f.text Var.text = g.text Var.text → (∀ c, conn c [] ∉ f.nodes) →
        ∀ env, f.eval env = g.eval env) :=
  ⟨⟨alike_of_text_eq, fun h => h.text_eq Var.text⟩,
    fun h hempty env => (alike_of_text_eq h).eval_eq hempty env⟩

/-- A minus sign that is an operation, one that belongs to a number, and one between two terms. -/
theorem text_eq_iff_alike_minus :
    let x : Term := .var ⟨0⟩
    let cmp : Formula := .cmp .le (.bin .sub (.neg (.const 5)) (.const (-5))) (.neg x)
    let f : Formula := .conn .and [.conn .or [.not cmp], .const false]
    let g : Formula := .conn .and [.conn .and [.not cmp], .const false]
    f.text Var.text = "((!(((-5) - -5) <= (-v0))) & false)" ∧ f.text Var.text = g.text Var.text ∧
      (∀ c, conn c [] ∉ f.nodes) ∧ ∀ env, f.eval env = g.eval env := by
  intro x cmp f g
  have htext : f.text Var.text = g.text Var.text := rfl
  have hempty : ∀ c, conn c [] ∉ f.nodes := by
    intro c
    cases c <;> decide
  exact ⟨by decide, htext, hempty, (text_eq_iff_alike f g).2 htext hempty⟩

/-- Without an argument it is the connective that decides. -/
example : (conn .and []).text Var.text = (conn .or []).text Var.text ∧
    ∀ env, (conn .and []).eval env ≠ (conn .or []).eval env :=
  ⟨rfl, fun _ => nofun⟩

end Formula

end IntervalPruning
