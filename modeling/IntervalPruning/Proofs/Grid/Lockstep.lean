import IntervalPruning.Proofs.Grid.Search
import IntervalPruning.Proofs.Session.Journal

/-!
# IntervalPruning.Proofs.Grid.Lockstep

A session in front of a grid prover beside a grid prover that is asked the same directly. What the
two hold differs, and so does the order in which they try values; but as long as no constraint is
lost that changed an interval, both have the same solutions, and so they give the same answers
(`run_eq_of_nothing_lost`).

* `GridProver.unsatWith_congr`, `GridProver.core?_congr`: the answers depend on the radius and on
  the solutions of what is held.
* `Lockstep` relates the two and the journal of the session; `Lockstep.step` keeps it, and under it
  a call has the same result on both sides (`Lockstep.result_eq`).
-/

namespace IntervalPruning

namespace GridProver

variable {p q : GridProver}

theorem unsatWith_congr (hr : 0 ≤ p.radius) (hradius : q.radius = p.radius)
    (h : SameSolutions p.asserted q.asserted) : p.unsatWith = q.unsatWith := by
  funext fs
  have hsome := Grid.solve_isSome_congr hr (h.append_right fs)
  rw [unsatWith, unsatWith, ← Option.not_isSome, ← Option.not_isSome, solve, solve, hradius, hsome]

theorem core?_congr (h : p.unsatWith = q.unsatWith) : p.core? = q.core? := by
  funext fs
  rw [core?, core?, h]

theorem result_pop (p : GridProver) :
    (Prover.pop p).result =
      if p.scopes.pop?.isSome then .ok () else .error (.solver "pop without matching push") := by
  cases h : p.scopes.pop? with
  | some s =>
    rw [pop_of_eq_some h]
    rfl
  | none =>
    rw [pop_of_eq_none h]
    rfl

theorem isOk_pop (p : GridProver) : (Prover.pop p).result.isOk = p.scopes.pop?.isSome := by
  rw [result_pop]
  cases p.scopes.pop?.isSome with
  | true => rfl
  | false => rfl

theorem radius_pop (p : GridProver) : (Prover.pop p).state.radius = p.radius := by
  cases h : p.scopes.pop? with
  | some s =>
    rw [pop_of_eq_some h]
    rfl
  | none =>
    rw [pop_of_eq_none h]
    rfl

theorem radius_call (p : GridProver) (c : Call) : (Prover.call p c).state.radius = p.radius := by
  cases c with
  | pop => exact radius_pop p
  | add f => rfl
  | query f => rfl
  | push => rfl
  | isUnsat => rfl
  | isUnsatWith fs => rfl
  | unsatCore fs => rfl

end GridProver

theorem Session.radius_call (s : Session GridProver) (c : Call) :
    (s.call c).state.prover.radius = s.prover.radius := by
  cases c with
  | pop => exact GridProver.radius_pop s.prover
  | add f => rfl
  | query f => rfl
  | push => rfl
  | isUnsat => rfl
  | isUnsatWith fs => rfl
  | unsatCore fs => rfl

/-- A session, and a prover that was told all that the session was told. -/
structure Lockstep (radius : Int) (s : Session GridProver) (p : GridProver) (j : Journal) :
    Prop where
  tracks : Tracks s.router s.asserted j
  scopes : p.scopes = j.originals
  radius_session : s.prover.radius = radius
  radius_prover : p.radius = radius

namespace Lockstep

variable {m : Marking} {radius : Int} {s : Session GridProver} {p : GridProver} {j : Journal}

theorem start (config : Config) (radius : Int) :
    Lockstep radius (.start config { radius := radius }) { radius := radius } (.start .empty) :=
  ⟨Tracks.start config .empty, rfl, rfl, rfl⟩

/-- Each side has a scope to close exactly if the other has. -/
theorem isSome_pop (h : Lockstep radius s p j) : s.prover.scopes.pop?.isSome = p.scopes.pop?.isSome := by
  have hshape : s.asserted.pop?.isSome = j.told.pop?.isSome := h.tracks.agrees.isSome_pop
  rw [h.scopes, Journal.originals, Scopes.isSome_pop_map, ← hshape]
  rfl

theorem scopes_pop (h : Lockstep radius s p j) :
    (Prover.pop p).state.scopes =
      (j.note m s.router .pop (s.call .pop).result.isOk).originals := by
  have hcommit : (Prover.pop p).state.scopes = _ := ScopedProver.pop_commits p
  have hok : (s.call .pop).result.isOk = p.scopes.pop?.isSome := by
    rw [← h.isSome_pop, ← GridProver.isOk_pop]
    exact (Reply.isOk_map _ s.pop).trans rfl
  rw [hcommit, hok, GridProver.isOk_pop]
  cases p.scopes.pop?.isSome with
  | true =>
    show p.scopes.drop = (j.told.drop).map Entry.formula
    rw [Scopes.map_drop, h.scopes]
    rfl
  | false => exact h.scopes

theorem step (h : Lockstep radius s p j) (c : Call) :
    Lockstep radius (s.call c).state (Prover.call p c).state
      (j.note m s.router c (s.call c).result.isOk) where
  tracks := h.tracks.step (Session.step_call s c)
  radius_session := (Session.radius_call s c).trans h.radius_session
  radius_prover := (GridProver.radius_call p c).trans h.radius_prover
  scopes := by
    cases c with
    | add f =>
      show p.scopes.add f = (j.told.add _).map Entry.formula
      rw [Scopes.map_add, h.scopes]
      rfl
    | query f =>
      show p.scopes.add f = (j.told.add _).map Entry.formula
      rw [Scopes.map_add, h.scopes]
      rfl
    | push =>
      show p.scopes.push = (j.told.push).map Entry.formula
      rw [Scopes.map_push, h.scopes]
      rfl
    | pop => exact h.scopes_pop
    | isUnsat => exact h.scopes
    | isUnsatWith fs => exact h.scopes
    | unsatCore fs => exact h.scopes

theorem sameSolutions (h : Lockstep radius s p j) (hlost : j.lost = []) :
    SameSolutions s.prover.asserted p.asserted := by
  intro env
  have hiff : Models env s.asserted.toList ↔ Models env j.originals.toList := by
    refine h.tracks.models_iff ?_
    rw [hlost]
    exact models_nil
  rw [← h.scopes] at hiff
  exact hiff

theorem result_eq (h : Lockstep radius s p j) (hr : 0 ≤ radius) (hlost : j.lost = []) (c : Call) :
    (s.call c).result = (Prover.call p c).result := by
  have hradius : p.radius = s.prover.radius := h.radius_prover.trans h.radius_session.symm
  have hunsat : s.prover.unsatWith = p.unsatWith :=
    GridProver.unsatWith_congr (h.radius_session ▸ hr) hradius (h.sameSolutions hlost)
  cases c with
  | add f => rfl
  | query f => rfl
  | push => rfl
  | pop =>
    show ((Prover.pop s.prover).result.map _) = (Prover.pop p).result.map _
    rw [GridProver.result_pop, GridProver.result_pop, h.isSome_pop]
  | isUnsat =>
    show Except.ok (Answer.truth (s.prover.unsatWith [])) = .ok (.truth (p.unsatWith []))
    rw [hunsat]
  | isUnsatWith fs =>
    show Except.ok (Answer.truth (s.prover.unsatWith fs)) = .ok (.truth (p.unsatWith fs))
    rw [hunsat]
  | unsatCore fs =>
    show Except.ok (Answer.core (s.prover.core? fs)) = .ok (.core (p.core? fs))
    rw [GridProver.core?_congr hunsat]

theorem run (h : Lockstep radius s p j) (calls : List Call) :
    Lockstep radius (s.run calls).2 (Prover.run p calls).2 (s.journalFrom m j calls) := by
  induction calls generalizing s p j with
  | nil => exact h
  | cons c cs ih => exact ih (h.step c)

theorem results_eq (h : Lockstep radius s p j) (hr : 0 ≤ radius) (calls : List Call)
    (hlost : (s.journalFrom m j calls).lost = []) :
    (s.run calls).1 = (Prover.run p calls).1 := by
  induction calls generalizing s p j with
  | nil => rfl
  | cons c cs ih =>
    have hnow : j.lost = [] :=
      List.prefix_nil.1 (hlost ▸ Session.lost_journalFrom m s j (c :: cs))
    have hhead := h.result_eq hr hnow c
    have htail := ih (h.step c) hlost
    exact congrArg₂ List.cons hhead htail

end Lockstep

/-- **A router does not show.** Whatever the configuration, a session in front of a grid prover
gives the answers of that prover alone, one call after another, unless a scope was closed in which
a constraint changed an interval. And so at any point for any call that may come next. -/
theorem Session.run_eq_of_nothing_lost (config : Config) {radius : Int} (hr : 0 ≤ radius)
    (calls : List Call)
    (hlost : ((start config ({ radius := radius } : GridProver)).journal .shrinking calls).lost =
      []) :
    let session := start config ({ radius := radius } : GridProver)
    let prover : GridProver := { radius := radius }
    (session.run calls).1 = (Prover.run prover calls).1 ∧
      ∀ pre, pre <+: calls → ∀ c,
        ((session.run pre).2.call c).result = (Prover.call (Prover.run prover pre).2 c).result := by
  intro session prover
  have h := Lockstep.start config radius
  refine ⟨h.results_eq hr calls hlost, ?_⟩
  rintro pre ⟨more, rfl⟩ c
  have hpre : (session.journal .shrinking pre).lost = [] := by
    rw [journal, journalFrom_append] at hlost
    exact List.prefix_nil.1 (hlost ▸ lost_journalFrom .shrinking _ _ more)
  exact (h.run pre).result_eq hr hpre c

/-- After `1 <= x` the query `0 <= x or z < y` is asserted as `true`, so that only the prover on its
own tries values for `z` and `y`. -/
theorem Session.run_eq_of_nothing_lost_folded :
    let x : Term := .var ⟨0⟩
    let y : Term := .var ⟨1⟩
    let z : Term := .var ⟨2⟩
    let calls : List Call := [.add (.cmp .ge x (.const 1)), .push,
      .query (.conn .or [.cmp .ge x (.const 0), .cmp .lt z y]),
      .unsatCore [.cmp .lt y x, .cmp .lt x (.const 1), .cmp .eq z y], .pop, .pop]
    let prover : GridProver := { radius := 2 }
    let session := start {} prover
    (session.journal .shrinking calls).lost = [] ∧
      (session.run (calls.take 3)).2.asserted ≠ (Prover.run prover (calls.take 3)).2.scopes ∧
      (session.run calls).1 = (Prover.run prover calls).1 := by
  intro x y z calls prover session
  have hlost : (session.journal .shrinking calls).lost = [] := by decide
  exact ⟨hlost, by decide, (run_eq_of_nothing_lost {} (by decide : (0 : Int) ≤ 2) calls hlost).1⟩

end IntervalPruning
