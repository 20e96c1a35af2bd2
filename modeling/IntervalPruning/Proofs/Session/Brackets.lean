import IntervalPruning.Proofs.Prover.Held
import IntervalPruning.Proofs.Session.Counters

/-!
# IntervalPruning.Proofs.Session.Brackets

What a session over a grid prover holds, told by the brackets among its calls. Whatever the router
makes of a formula, the prover puts it where the call stands, and so its stack goes along with the
calls as `marks` does (`Session.prover_run`). From there the answers are those of the brackets: which
formulas are held, when a scope can be closed, and what closing it brings back
(`Session.asserted_eq_held`).
-/

namespace IntervalPruning

open Brackets

section runCalls

variable {σ : Type} {call : σ → Call → Reply σ Answer} {s : σ} {calls : List Call} {n : Nat}
  {c : Call}

theorem runCalls_append (call : σ → Call → Reply σ Answer) (s : σ) (cs ds : List Call) :
    (runCalls call s (cs ++ ds)).2 = (runCalls call (runCalls call s cs).2 ds).2 := by
  induction cs generalizing s with
  | nil => rfl
  | cons c cs ih => exact ih (call s c).state

/-- Each call has the result that it has after the calls before it. -/
theorem getElem?_runCalls (h : calls[n]? = some c) :
    (runCalls call s calls).1[n]? = some (call (runCalls call s (calls.take n)).2 c).result := by
  induction calls generalizing s n with
  | nil => cases h
  | cons d ds ih =>
    cases n with
    | zero =>
      cases h
      rfl
    | succ n => exact ih (s := (call s d).state) h

end runCalls

namespace Router

variable {r : Router} {calls cs : List Call} {c : Call}

/-- The formula that the prover gets in a call, if it gets one there. -/
def handed (r : Router) (calls : List Call) (n : Nat) : Formula :=
  match calls[n]? with
  | some (.add f) => ((r.afterAll (calls.take n)).add f).assertion
  | some (.query f) => ((r.afterAll (calls.take n)).query f).assertion
  | _ => .const true

theorem askedIn_relay (h : cs ++ [c] <+: calls) :
    Traced.askedIn ((r.afterAll cs).relay c) =
      if c.tells then [r.handed calls cs.length] else [] := by
  obtain ⟨tail, rfl⟩ := h
  cases c <;> simp [relay, Traced.askedIn, Call.tells, handed]

theorem relayAll_concat (r : Router) (cs : List Call) (c : Call) :
    r.relayAll (cs ++ [c]) = r.relayAll cs ++ [(r.afterAll cs).relay c] := by
  induction cs generalizing r with
  | nil => rfl
  | cons d ds ih => exact congrArg (r.relay d :: ·) (ih (r.after d))

/-- One formula for each call that hands one over, in the order of the calls. -/
theorem asked_relayAll (h : cs <+: calls) :
    (r.relayAll cs).flatMap Traced.askedIn = (tellings cs).map (r.handed calls) := by
  induction cs using List.reverseRecOn with
  | nil => rfl
  | append_singleton cs c ih =>
    rw [relayAll_concat, List.flatMap_append, ih ((List.prefix_append cs [c]).trans h),
      tellings_concat, List.map_append, List.flatMap_singleton, askedIn_relay h]
    split <;> rfl

end Router

namespace Session

variable {config : Config} {radius : Int} {s : Session GridProver} {scopes : Scopes Nat}
  {g : Nat → Formula} {calls cs : List Call} {c : Call} {n : Nat}

theorem call_pop_of_outer_eq_nil (h : s.prover = ⟨radius, scopes.map g⟩) (hnil : scopes.outer = []) :
    s.call .pop = .fail (.solver "pop without matching push") s := by
  have hpop : s.prover.scopes.pop? = none := by
    rw [h]
    simp [Scopes.pop?, Scopes.map, hnil]
  show ((Prover.pop s.prover).mapState _).map _ = _
  rw [GridProver.pop_of_eq_none hpop]
  rfl

theorem call_pop_of_outer_ne_nil (h : s.prover = ⟨radius, scopes.map g⟩) (hne : scopes.outer ≠ [])
    (n : Nat) :
    s.call .pop = .ok .done { s with prover := ⟨radius, (mark scopes n .pop).map g⟩ } := by
  obtain ⟨as, ass, houter⟩ := List.exists_cons_of_ne_nil hne
  have hpop : s.prover.scopes.pop? = some ((mark scopes n .pop).map g) := by
    rw [h, mark_pop, Scopes.pop?_of_outer_eq_cons houter]
    simp [Scopes.pop?, Scopes.map, houter]
  show ((Prover.pop s.prover).mapState _).map _ = _
  rw [GridProver.pop_of_eq_some hpop, h]
  rfl

/-- The prover puts what it gets in a call at the place of the call. -/
theorem prover_call (h : s.prover = ⟨radius, scopes.map g⟩)
    (hasked : Traced.askedIn (s.router.relay c) = if c.tells then [g n] else []) :
    (s.call c).state.prover = ⟨radius, (mark scopes n c).map g⟩ := by
  cases c with
  | add f =>
    have hf : (s.router.add f).assertion = g n := (List.cons.inj hasked).1
    show ({ s.prover with scopes := s.prover.scopes.add _ } : GridProver) = _
    rw [h, hf, mark_of_tells rfl, Scopes.map_add]
  | query f =>
    have hf : (s.router.query f).assertion = g n := (List.cons.inj hasked).1
    show ({ s.prover with scopes := s.prover.scopes.add _ } : GridProver) = _
    rw [h, hf, mark_of_tells rfl, Scopes.map_add]
  | push =>
    show ({ s.prover with scopes := s.prover.scopes.push } : GridProver) = _
    rw [h, mark_push, Scopes.map_push]
  | pop =>
    by_cases hnil : scopes.outer = []
    · rw [call_pop_of_outer_eq_nil h hnil, mark_pop, Scopes.pop?_of_outer_eq_nil hnil]
      exact h
    · rw [call_pop_of_outer_ne_nil h hnil n]
      rfl
  | isUnsat => exact h
  | isUnsatWith fs => exact h
  | unsatCore fs => exact h

theorem prover_run (config : Config) (radius : Int) (h : cs <+: calls) :
    ((start config ({ radius := radius } : GridProver)).run cs).2.prover =
      ⟨radius, (marks cs).map (({ config := config } : Router).handed calls)⟩ := by
  induction cs using List.reverseRecOn with
  | nil => rfl
  | append_singleton cs c ih =>
    have hcs := ih ((List.prefix_append cs [c]).trans h)
    rw [run, runCalls_append, marks_concat]
    refine prover_call hcs ?_
    rw [← run, router_run]
    exact Router.askedIn_relay h

/-- A scope can be closed if one is open. -/
theorem call_pop_run (config : Config) (radius : Int) (calls : List Call) :
    let last := ((start config ({ radius := radius } : GridProver)).run calls).2
    (∃ i, Unmatched calls i) ∧ (last.call .pop).result = .ok .done ∨
      (¬ ∃ i, Unmatched calls i) ∧
        last.call .pop = .fail (.solver "pop without matching push") last := by
  intro last
  have hlast := prover_run config radius (List.prefix_refl calls)
  by_cases hnil : (marks calls).outer = []
  · refine Or.inr ⟨fun h => outer_marks_ne_nil_iff.2 h hnil, ?_⟩
    exact call_pop_of_outer_eq_nil hlast hnil
  · refine Or.inl ⟨outer_marks_ne_nil_iff.1 hnil, ?_⟩
    rw [call_pop_of_outer_ne_nil hlast hnil calls.length]
    rfl

theorem result_pop_run (config : Config) (radius : Int) {j : Nat} (hj : calls[j]? = some .pop) :
    ((start config ({ radius := radius } : GridProver)).run calls).1[j]? = some (.ok .done) ↔
      ∃ i, Matched calls i j := by
  rw [run, getElem?_runCalls hj, exists_matched_iff hj]
  rcases call_pop_run config radius (calls.take j) with ⟨hopen, hok⟩ | ⟨hclosed, hfail⟩
  · exact iff_of_true (congrArg some hok) hopen
  · refine iff_of_false (fun h => ?_) hclosed
    have hresult := Option.some.inj h
    rw [← run, hfail] at hresult
    cases hresult

theorem call_pop_run_balanced (config : Config) (radius : Int) (calls : List Call)
    {inner : List Call} (h : Balanced inner) :
    let last := ((start config ({ radius := radius } : GridProver)).run calls).2
    let inside := (last.run (.push :: inner)).2
    inside.call .pop = .ok .done { inside with prover := last.prover } := by
  intro last inside
  have hinside : inside = ((start config _).run (calls ++ .push :: inner)).2 :=
    (runCalls_append call _ calls (.push :: inner)).symm
  have hprefix : calls ++ .push :: inner <+: calls ++ .push :: inner ++ [.pop] :=
    List.prefix_append _ _
  have hprover := prover_run config radius hprefix
  rw [← hinside] at hprover
  have hlast : last.prover = _ :=
    prover_run config radius ((List.prefix_append calls (.push :: inner)).trans hprefix)
  have hopen : (marks (calls ++ .push :: inner)).outer ≠ [] :=
    outer_marks_ne_nil_iff.2
      ⟨calls.length, (matched_concat_self_iff.1 (matched_of_balanced h calls)).1⟩
  rw [call_pop_of_outer_ne_nil hprover hopen (calls ++ .push :: inner).length, ← marks_concat,
    marks_of_balanced h, hlast]

/-- **Scopes neither lose nor duplicate what was asserted.** The formulas that the prover is asked to
assert are numbered by the calls that hand them over, one each. It holds, in the order of these calls,
those of the calls that no closed scope encloses. A scope is closed exactly if one is open, and a
failed attempt changes nothing. Closing a scope after a balanced run brings back what was held before
it was opened, and leaves the router as it became inside. -/
theorem asserted_eq_held (config : Config) (radius : Int) (calls : List Call) :
    let session := start config ({ radius := radius } : GridProver)
    let traced := start config ({ prover := { radius := radius } } : Traced GridProver)
    let last := (session.run calls).2
    (∃ handed : Nat → Formula,
        (traced.run calls).2.prover = ⟨last.prover, (tellings calls).map handed⟩ ∧
          last.prover.asserted = (held calls).map handed) ∧
      (∀ j, calls[j]? = some .pop →
        ((session.run calls).1[j]? = some (.ok .done) ↔ ∃ i, Matched calls i j)) ∧
      ((∃ i, Unmatched calls i) ∧ (last.call .pop).result = .ok .done ∨
        (¬ ∃ i, Unmatched calls i) ∧
          last.call .pop = .fail (.solver "pop without matching push") last) ∧
      ∀ inner, Balanced inner →
        let inside := (last.run (.push :: inner)).2
        inside.call .pop = .ok .done { inside with prover := last.prover } := by
  intro session traced last
  refine ⟨⟨({ config := config } : Router).handed calls, ?_, ?_⟩,
    fun j => result_pop_run config radius, call_pop_run config radius calls,
    fun inner => call_pop_run_balanced config radius calls⟩
  · rw [← Router.asked_relayAll (List.prefix_refl calls)]
    exact prover_run_traced config _ calls
  · have hlast : last.prover = _ := prover_run config radius (List.prefix_refl calls)
    rw [hlast, GridProver.asserted, Scopes.toList_map, toList_marks]

/-- The first attempt finds nothing to close. Of the scopes opened after it the first encloses the
second and both are closed; the third stays open, and what is opened and closed in it leaves only what
the router has learnt. -/
theorem asserted_eq_held_nested :
    let x : Term := .var ⟨0⟩
    let y : Term := .var ⟨1⟩
    let calls : List Call := [.pop, .add (.cmp .ge x (.const 5)), .push, .query (.cmp .ge x (.const 3)),
      .push, .add (.cmp .le x y), .pop, .pop, .push, .query (.cmp .le y (.const 9))]
    let inner : List Call := [.push, .add (.cmp .le x (.const 7)), .pop, .query (.cmp .le x (.const 8))]
    let session := start {} ({ radius := 9 } : GridProver)
    let last := (session.run calls).2
    let inside := (last.run (.push :: inner)).2
    (calls[7]? = some .pop ∧ (session.run calls).1[7]? = some (.ok .done)) ∧
      (session.run calls).1[0]? = some (.error (.solver "pop without matching push")) ∧
      held calls = [1, 9] ∧
      last.prover.asserted = [.cmp .ge x (.const 5), .cmp .le y (.const 9)] ∧
      inside.prover.asserted = last.prover.asserted ++ [.const true] ∧
      inside.router.ranges.get ⟨0⟩ = ⟨.fin 5, .fin 7⟩ ∧
      Balanced inner ∧ inside.call .pop = .ok .done { inside with prover := last.prover } := by
  intro x y calls inner session last inside
  have hpop : calls[7]? = some .pop := rfl
  have hmatched : Matched calls 2 7 := by decide
  have hbalanced : Balanced inner := by decide
  refine ⟨⟨hpop, ?_⟩, by decide, by decide, by decide, by decide, by decide, hbalanced, ?_⟩
  · exact ((asserted_eq_held {} 9 calls).2.1 7 hpop).2 ⟨2, hmatched⟩
  · exact (asserted_eq_held {} 9 calls).2.2.2 inner hbalanced

end Session

end IntervalPruning
