import IntervalPruning.Proofs.Formula.Models
import IntervalPruning.Proofs.Session.Step

/-!
# IntervalPruning.Proofs.Session.Journal

A session compared with a journal of what it was told. The journal keeps the constraints that were
accepted, as they came, in scopes that open and close with those of the prover. Some constraints
are marked, those on which the intervals of the router rest: with `Marking.narrowing` all that are
used to narrow, with `Marking.shrinking` only those that change an interval.

* `Tracks` relates a router and what the prover holds to the journal: at each position the two
  formulas have the same truth value wherever all marked constraints hold.
* `Tracks.step` keeps it for one call, `tracks_run` for all that follow.
* `Tracks.models_iff`: where the marked constraints that were lost hold (those that the prover
  refused, or dropped with a scope), all that the prover holds is as true as all that was told.
* `Session.asserted_agrees` puts this together for a whole session.

A `Call` is all that can change a session; its other operations read it and leave it as it is.
-/

namespace IntervalPruning

/-- Which constraints to mark: all that change an interval, and only such as may narrow one. -/
structure Marking where
  marks : Router → Formula → Bool
  narrows_of_marks : ∀ {r f}, marks r f = true → r.narrows f = true
  get_add : ∀ {r f}, marks r f = false → ∀ v, (r.add f).router.ranges.get v = r.ranges.get v

namespace Marking

def narrowing : Marking := ⟨Router.narrows, id, Router.get_add_of_not_narrows⟩

def shrinking : Marking :=
  ⟨Router.shrinks, Router.narrows_of_shrinks, Router.get_add_of_not_shrinks⟩

end Marking

/-- A constraint as it came. -/
structure Entry where
  formula : Formula
  marked : Bool
  deriving DecidableEq

def Entry.mark (e : Entry) : List Formula := if e.marked then [e.formula] else []

theorem Entry.mem_mark {e : Entry} {f : Formula} :
    f ∈ e.mark ↔ e.marked = true ∧ f = e.formula := by
  unfold mark
  split
  · rename_i h
    rw [List.mem_singleton]
    exact (and_iff_right h).symm
  · rename_i h
    exact iff_of_false List.not_mem_nil fun hf => h hf.1

structure Journal where
  /-- what was accepted, and not closed with its scope -/
  told : Scopes Entry
  /-- every marked constraint so far, accepted or not -/
  marked : List Formula := []
  /-- the marked constraints that were refused, or closed with their scope -/
  lost : List Formula := []
  deriving DecidableEq

namespace Journal

/-- Nothing is known about what a prover holds at the start. -/
def start (a : Scopes Formula) : Journal := { told := a.map (⟨·, false⟩) }

def originals (j : Journal) : Scopes Formula := j.told.map Entry.formula

def accept (j : Journal) (e : Entry) : Journal :=
  { j with told := j.told.add e, marked := j.marked ++ e.mark }

def refuse (j : Journal) (e : Entry) : Journal :=
  { j with marked := j.marked ++ e.mark, lost := j.lost ++ e.mark }

def push (j : Journal) : Journal := { j with told := j.told.push }

def pop (j : Journal) : Journal :=
  { j with told := j.told.drop, lost := j.lost ++ j.told.current.flatMap Entry.mark }

/-- The journal after a call that met the router `r` and took effect or not. -/
def note (m : Marking) (r : Router) (j : Journal) : Call → Bool → Journal
  | .add f, true => j.accept ⟨f, m.marks r f⟩
  | .add f, false => j.refuse ⟨f, m.marks r f⟩
  | .query f, true => j.accept ⟨f, false⟩
  | .push, _ => j.push
  | .pop, true => j.pop
  | _, _ => j

theorem note_of_asks {c : Call} (h : c.asks = true) (m : Marking) (r : Router) (j : Journal)
    (ok : Bool) : j.note m r c ok = j :=
  Call.asks_cases (P := fun c => j.note m r c ok = j) h rfl (fun _ => rfl) fun _ => rfl

/-- What is lost stays lost. -/
theorem lost_note (j : Journal) (m : Marking) (r : Router) (c : Call) (ok : Bool) :
    j.lost <+: (j.note m r c ok).lost := by
  unfold note
  split
  · exact List.prefix_rfl
  · exact List.prefix_append _ _
  · exact List.prefix_rfl
  · exact List.prefix_rfl
  · exact List.prefix_append _ _
  · exact List.prefix_rfl

end Journal

/-! ## The invariant -/

/-- An asserted formula and the constraint from which it comes: the same formula if it is marked,
and the same truth value wherever the given constraints hold. -/
def Agrees (marked : List Formula) (f : Formula) (e : Entry) : Prop :=
  (e.marked = true → f = e.formula) ∧
    ∀ env, Models env marked → f.eval env = e.formula.eval env

structure Tracks (r : Router) (a : Scopes Formula) (j : Journal) : Prop where
  admits : ∀ env, Models env j.marked → r.ranges.Admits env
  agrees : a.Forall₂ (Agrees j.marked) j.told
  held : ∀ f ∈ j.marked, f ∈ j.lost ∨ ∃ e ∈ j.told.toList, f ∈ e.mark

theorem Agrees.append {marked : List Formula} {f : Formula} {e : Entry} (h : Agrees marked f e)
    (more : List Formula) : Agrees (marked ++ more) f e :=
  ⟨h.1, fun env henv => h.2 env (models_append.1 henv).1⟩

namespace Tracks

variable {m : Marking} {r r' : Router} {a a' : Scopes Formula} {j : Journal} {c : Call} {ok : Bool}

theorem start (config : Config) (a : Scopes Formula) :
    Tracks { config := config } a (.start a) where
  admits env _ := Ranges.admits_empty env
  agrees := Scopes.forall₂_map_self (fun _ => ⟨fun h => Bool.noConfusion h, fun _ _ => rfl⟩) a
  held _ hf := absurd hf List.not_mem_nil

/-- Marking one more constraint keeps what is known at each position. -/
theorem agrees_append (h : Tracks r a j) (more : List Formula) :
    a.Forall₂ (Agrees (j.marked ++ more)) j.told :=
  h.agrees.imp fun _ _ hfe => hfe.append more

theorem admits_add (h : Tracks r a j) (f : Formula) {env : Var → Int}
    (henv : Models env (j.marked ++ (⟨f, m.marks r f⟩ : Entry).mark)) :
    (r.add f).router.ranges.Admits env := by
  obtain ⟨hold, hnew⟩ := models_append.1 henv
  have hadm := h.admits env hold
  cases hm : m.marks r f with
  | false => exact (Ranges.admits_congr (m.get_add hm)).2 hadm
  | true =>
    refine Router.admits_add hadm fun _ => hnew f ?_
    exact Entry.mem_mark.2 ⟨hm, rfl⟩

theorem agrees_add (h : Tracks r a j) (f : Formula) :
    Agrees (j.marked ++ (⟨f, m.marks r f⟩ : Entry).mark) (r.add f).assertion ⟨f, m.marks r f⟩ := by
  refine ⟨fun hm => Router.assertion_add_of_narrows (m.narrows_of_marks hm), ?_⟩
  intro env henv
  have hadm := h.admits env (models_append.1 henv).1
  exact Router.eval_assertion_add (Router.preserves_of_admits hadm) f

theorem agrees_query (h : Tracks r a j) (f : Formula) :
    Agrees j.marked (r.query f).assertion ⟨f, false⟩ := by
  refine ⟨fun hm => Bool.noConfusion hm, ?_⟩
  intro env henv
  exact Router.eval_assertion_query (Router.preserves_of_admits (h.admits env henv)) f

theorem accept (h : Tracks r a j) {f : Formula} {e : Entry}
    (hadm : ∀ env, Models env (j.marked ++ e.mark) → r'.ranges.Admits env)
    (hfe : Agrees (j.marked ++ e.mark) f e) : Tracks r' (a.add f) (j.accept e) where
  admits := hadm
  agrees := (h.agrees_append e.mark).add hfe
  held g hg := by
    have htold : (j.accept e).told.toList = j.told.toList ++ [e] := Scopes.toList_add _ _
    rw [htold]
    rcases List.mem_append.1 hg with hg | hg
    · rcases h.held g hg with hl | ⟨e', he', hge⟩
      · exact Or.inl hl
      · exact Or.inr ⟨e', List.mem_append_left _ he', hge⟩
    · exact Or.inr ⟨e, List.mem_append_right _ (List.mem_singleton_self e), hg⟩

theorem refuse (h : Tracks r a j) {e : Entry}
    (hadm : ∀ env, Models env (j.marked ++ e.mark) → r'.ranges.Admits env) :
    Tracks r' a (j.refuse e) where
  admits := hadm
  agrees := h.agrees_append e.mark
  held g hg := by
    rcases List.mem_append.1 hg with hg | hg
    · rcases h.held g hg with hl | he
      · exact Or.inl (List.mem_append_left _ hl)
      · exact Or.inr he
    · exact Or.inl (List.mem_append_right _ hg)

theorem push (h : Tracks r a j) : Tracks r a.push j.push where
  admits := h.admits
  agrees := h.agrees.push
  held g hg := by
    have htold : j.push.told.toList = j.told.toList := Scopes.toList_push _
    rw [htold]
    exact h.held g hg

theorem pop (h : Tracks r a j) : Tracks r a.drop j.pop where
  admits := h.admits
  agrees := h.agrees.drop
  held g hg := by
    rcases h.held g hg with hl | ⟨e, he, hge⟩
    · exact Or.inl (List.mem_append_left _ hl)
    · rcases Scopes.mem_toList_drop he with hc | hd
      · exact Or.inl (List.mem_append_right _ (List.mem_flatMap.2 ⟨e, hc, hge⟩))
      · exact Or.inr ⟨e, hd, hge⟩

theorem step (h : Tracks r a j) (hs : Step r a c ok r' a') : Tracks r' a' (j.note m r c ok) := by
  cases hs with
  | added f => exact h.accept (fun _ => h.admits_add f) (h.agrees_add f)
  | addRefused f => exact h.refuse fun _ => h.admits_add f
  | queried f =>
    have hmark : j.marked ++ (⟨f, false⟩ : Entry).mark = j.marked := List.append_nil _
    refine h.accept ?_ ?_
    · rw [hmark, Router.ranges_query]
      exact h.admits
    · rw [hmark]
      exact h.agrees_query f
  | queryRefused f => exact ⟨Router.ranges_query r f ▸ h.admits, h.agrees, h.held⟩
  | pushed => exact h.push
  | popped => exact h.pop
  | popRefused => exact h
  | asked hc ok =>
    rw [Journal.note_of_asks hc]
    exact h

/-- A lost constraint that holds all the same does no harm. -/
theorem models_iff (h : Tracks r a j) {env : Var → Int} (hl : Models env j.lost) :
    Models env a.toList ↔ Models env j.originals.toList := by
  have hpairs := h.agrees.toList
  have horig : j.originals.toList = j.told.toList.map Entry.formula := Scopes.toList_map _ _
  -- either side contains each marked constraint that was not lost, and so satisfies all of them
  have hsame : Models env j.marked → (Models env a.toList ↔ Models env j.originals.toList) := by
    intro hm
    rw [horig]
    refine models_iff_of_forall₂ (List.forall₂_map_right_iff.2 ?_)
    exact hpairs.imp fun f e hfe => hfe.2 env hm
  constructor
  · intro ha
    refine (hsame ?_).1 ha
    intro g hg
    rcases h.held g hg with hlost | ⟨e, he, hge⟩
    · exact hl g hlost
    · obtain ⟨hmarked, rfl⟩ := Entry.mem_mark.1 hge
      obtain ⟨f, hf, hfe⟩ := h.agrees.exists_mem_left he
      exact hfe.1 hmarked ▸ ha f hf
  · intro ho
    refine (hsame ?_).2 ho
    intro g hg
    rcases h.held g hg with hlost | ⟨e, he, hge⟩
    · exact hl g hlost
    · obtain ⟨-, rfl⟩ := Entry.mem_mark.1 hge
      exact ho _ (horig ▸ List.mem_map_of_mem he)

end Tracks

/-! ## Whole sessions -/

namespace Session

open ScopedProver

variable {σ : Type} [ScopedProver σ]

/-- The journal after a run, kept from `j` on. -/
def journalFrom (m : Marking) (s : Session σ) (j : Journal) : List Call → Journal
  | [] => j
  | c :: cs =>
    (s.call c).state.journalFrom m (j.note m s.router c (s.call c).result.isOk) cs

def journal (m : Marking) (s : Session σ) (calls : List Call) : Journal :=
  s.journalFrom m (.start s.asserted) calls

theorem journalFrom_append (m : Marking) (s : Session σ) (j : Journal) (calls more : List Call) :
    s.journalFrom m j (calls ++ more) =
      (s.run calls).2.journalFrom m (s.journalFrom m j calls) more := by
  induction calls generalizing s j with
  | nil => rfl
  | cons c cs ih => exact ih _ _

theorem lost_journalFrom (m : Marking) (s : Session σ) (j : Journal) (calls : List Call) :
    j.lost <+: (s.journalFrom m j calls).lost := by
  induction calls generalizing s j with
  | nil => exact List.prefix_rfl
  | cons c cs ih => exact (j.lost_note m s.router c _).trans (ih _ _)

theorem tracks_run (m : Marking) {s : Session σ} {j : Journal}
    (h : Tracks s.router s.asserted j) (calls : List Call) :
    Tracks (s.run calls).2.router (s.run calls).2.asserted (s.journalFrom m j calls) := by
  induction calls generalizing s j with
  | nil => exact h
  | cons c cs ih => exact ih (h.step (step_call s c))

/-- What the prover holds and what it was told have the same shape, and at each position the same
truth value wherever all constraints hold that were ever used to narrow. With none of these lost,
both have the same solutions. -/
theorem asserted_agrees (config : Config) (p : σ) (calls : List Call) :
    let last := ((start config p).run calls).2
    let journal := (start config p).journal .narrowing calls
    last.asserted.Forall₂
        (fun f g => ∀ env, Models env journal.marked → f.eval env = g.eval env)
        journal.originals ∧
      (journal.lost = [] → SameSolutions last.asserted.toList journal.originals.toList) := by
  intro last journal
  have h : Tracks last.router last.asserted journal :=
    tracks_run .narrowing (Tracks.start config (scopes p)) calls
  constructor
  · refine Scopes.forall₂_map_right.2 (h.agrees.imp ?_)
    intro f e hfe
    exact hfe.2
  · intro hlost env
    refine h.models_iff ?_
    rw [hlost]
    exact models_nil

/-- In an inner scope `3 <= x` is dropped from a query, as `5 <= x` is known from the outer one. -/
theorem asserted_agrees_nested :
    let x : Term := .var ⟨0⟩
    let y : Term := .var ⟨1⟩
    let calls : List Call := [.add (.cmp .ge x (.const 5)), .push,
      .query (.conn .and [.cmp .ge x (.const 3), .cmp .le y x])]
    let session := start {} ({} : ScriptedProver)
    let last := (session.run calls).2
    let journal := session.journal .narrowing calls
    last.asserted = ⟨[.cmp .le y x], [[.cmp .ge x (.const 5)]]⟩ ∧
      journal.lost = [] ∧ SameSolutions last.asserted.toList journal.originals.toList := by
  intro x y calls session last journal
  have hlost : journal.lost = [] := by decide
  exact ⟨by decide, hlost, (asserted_agrees {} ({} : ScriptedProver) calls).2 hlost⟩

end Session

end IntervalPruning
