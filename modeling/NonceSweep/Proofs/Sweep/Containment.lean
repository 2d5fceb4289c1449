import NonceSweep.Proofs.Pool.Joining
import NonceSweep.Proofs.Sweep.Outcome

/-!
# Workers that break off

Any call of a worker may break off, be it on its hasher, for a commitment, or as the hasher is given up.
Nothing is assumed of the backend here but that it can be set up. A sweep waits for all workers all the same,
logs an error for each that has broken off, and fails with the first. The others do not notice: if any worker
at all has come to its end, every nonce was handed in, and none twice.

## Main results

- `Joining.takeStock_eq`: what is noted while workers are joined is what a sweep concludes
- `Sweep.ends_of_start`: how a sweep ends
- `Sweep.contained_of_settled`: what the workers have done by then
- `Sweep.failures_contained`: a whole sweep, whichever workers break off
-/

namespace NonceSweep

/-! ## What workers log -/

/-- What workers log are no errors. -/
theorem Worker.level_of_log {b : Backend} {w w' : Worker b} {next : UInt64} {event : Event}
    (h : w.step next = some (.log event, w')) : event.level ≠ .error := by
  cases move_of_step h with
  | @bind processor allowed hpoint => cases allowed <;> exact Level.noConfusion
  | leave hpoint => exact Level.noConfusion

/-- What is true of everything that workers log is true of the whole log. -/
theorem Pool.Steps.forall_mem_log {b : Backend} {P : Event → Prop}
    (hworker : ∀ {w w' : Worker b} {next event}, w.step next = some (.log event, w') → P event) {p q : Pool b}
    {actions : List (Nat × Action)} (hsteps : Steps p actions q) (hstart : ∀ event ∈ p.ledger.log, P event) :
    ∀ event ∈ q.ledger.log, P event := by
  apply hsteps.induction (motive := fun _ q => ∀ event ∈ q.ledger.log, P event) hstart
  intro done q i a r h hstep
  obtain ⟨w, w', -, hmove, rfl⟩ := step_eq_some hstep
  cases a with
  | log event =>
    intro e he
    rcases List.mem_append.mp he with hold | hnew
    · exact h e hold
    · rw [List.mem_singleton.mp hnew]
      exact hworker hmove
  | claim _ | call _ | finish _ _ | merge _ | release => exact h

/-! ## Taking stock -/

/-- What a sweep makes of what was noted while its workers were joined. -/
def Joining.takeStock {b : Backend} (host : Host) (plan : Plan) (j : Joining b) : Session Report := do
  Session.log j.pool.ledger.log
  Session.log j.findings.log
  match j.findings.failure with
  | some first => Session.fail (.workerPanicked first)
  | none =>
    let claims := j.pool.ledger.dispenser.next
    let fingerprint := j.pool.ledger.accumulator.value
    Session.log [.joined claims plan.nonces, .reported fingerprint]
    return {
      fingerprint
      strategy := plan.strategy
      threads := plan.threads
      nonces := plan.nonces
      hashes := j.findings.counts.foldl (· + ·) 0
      perWorker := j.findings.counts
      claims
      elapsed := host.sweepTime }

/-- **A sweep concludes what was noted when all its workers were joined.** -/
theorem Joining.takeStock_eq {b : Backend} (host : Host) (plan : Plan) {j : Joining b}
    (h : j.Faithful) (hdone : j.Done) : j.takeStock host plan = Sweep.conclude host plan j.pool := by
  unfold takeStock Sweep.conclude
  rw [h.findings_of_done hdone]
  show (Session.log j.pool.ledger.log >>= fun _ => _) = (Session.log j.pool.ledger.log >>= fun _ => _)
  apply congrArg
  funext _
  cases hcasualties : j.pool.casualties with
  | nil =>
    rw [Findings.of_pool_eq hcasualties]
    rfl
  | cons first others =>
    show (Session.log (j.pool.casualties.map .workerPanicked) >>= fun _ =>
      match j.pool.casualties.head? with | some first => _ | none => _) = _
    rw [hcasualties]
    rfl

namespace Sweep

variable {b : Backend} {host : Host} {plan : Plan}

/-! ## The first stages -/

theorem configure_calm (hcheck : plan.check = .ok ()) : (configure plan).Calm := by
  unfold configure
  rw [hcheck]
  exact Session.Calm.log (by simp [Event.level])

theorem prepare_calm {raw : b.Shared} (hallocate : (b.allocate plan.options).2 = .ok raw) :
    (prepare b host plan).Calm := by
  unfold prepare
  apply (Session.Calm.allocate b plan.options).bind
  intro result hresult
  -- the engine can be set up, so no failure is logged
  rw [Session.result_allocate, hallocate] at hresult
  rw [← Except.ok.inj hresult]
  apply (Session.Calm.seed b plan raw).bind
  intro shared _
  exact (Session.Calm.log (by simp [Event.level])).bind fun _ _ => Session.Calm.pure shared

theorem makeWorkers_calm (template : Template) (shared : b.Shared) (count index : Nat) :
    (makeWorkers b host plan template shared count index).Calm := by
  induction count generalizing index with
  | zero => exact Session.Calm.pure []
  | succ count ih =>
    exact (Session.Calm.hasher b shared index).bind fun _ _ =>
      (ih (index + 1)).bind fun _ _ => Session.Calm.pure _

theorem launch_calm (template : Template) (shared : b.Shared) :
    (launch b host plan template shared).Calm := by
  unfold launch
  apply (Session.Calm.log (by simp [Event.level])).bind
  intro _ _
  cases table host plan.threads with
  | error collapse => exact Session.Calm.pure _
  | ok => exact (makeWorkers_calm template shared _ 0).bind fun _ _ => Session.Calm.pure _

/-- Nothing is amiss until workers run. -/
theorem start_calm {raw : b.Shared} (hcheck : plan.check = .ok ())
    (hallocate : (b.allocate plan.options).2 = .ok raw) (template : Template) :
    (start b host plan template).Calm :=
  (configure_calm hcheck).bind fun _ _ =>
    (prepare_calm hallocate).bind fun shared _ => launch_calm template shared

/-! ## The end of a sweep -/

theorem filter_error_of_calm {events : List Event} (h : ∀ event ∈ events, event.level ≠ .error) :
    events.filter (·.level = .error) = [] := by
  rw [List.filter_eq_nil_iff]
  intro event hevent herror
  exact h event hevent (of_decide_eq_true herror)

/-- Of all that is logged in the last stage, only what is said of workers that broke off is an error. -/
theorem errors_conclude {pool : Pool b} (hcalm : ∀ event ∈ pool.ledger.log, event.level ≠ .error) :
    (conclude host plan pool).events.filter (·.level = .error) =
      pool.casualties.map .workerPanicked := by
  unfold conclude
  rw [Session.events_bind_of_ok (Session.result_log _), Session.events_log, List.filter_append,
    filter_error_of_calm hcalm, List.nil_append]
  cases pool.casualties with
  | nil =>
    apply filter_error_of_calm
    intro event hevent
    rcases List.mem_cons.mp hevent with rfl | hevent
    · exact Level.noConfusion
    · rw [List.mem_singleton.mp hevent]
      exact Level.noConfusion
  | cons first others =>
    have hlast : (Session.fail (.workerPanicked first) : Session Report).events = [] := rfl
    rw [Session.events_bind_of_ok (Session.result_log _), Session.events_log, hlast, List.append_nil,
      List.filter_eq_self]
    intro event hevent
    obtain ⟨i, -, rfl⟩ := List.mem_map.mp hevent
    exact decide_eq_true rfl

/-- **How a sweep ends** whose workers `broken` have broken off. -/
structure Ends (broken : List Nat) (s : Session (Except Collapse Report)) : Prop where
  report_iff : (∃ report, s.result = .ok (.ok report)) ↔ broken = []
  failure_eq : ∀ first ∈ broken.head?, s.result = .error (.workerPanicked first)
  errors_eq : s.events.filter (·.level = .error) = broken.map .workerPanicked
  messages_eq : (s.events.filter (·.level = .error)).map Event.message =
    broken.map fun i => "worker " ++ toString i ++ " panicked"

theorem ends_of_start {raw : b.Shared} (hcheck : plan.check = .ok ())
    (hallocate : (b.allocate plan.options).2 = .ok raw) {template : Template} {pool : Pool b}
    (hstart : (start b host plan template).result = .ok (.ok pool)) {schedule : Pool.Schedule b}
    (hcalm : ∀ event ∈ (schedule pool).ledger.log, event.level ≠ .error) :
    Ends (schedule pool).casualties (run b host schedule plan template) := by
  -- what is concluded is all that comes after the first stages
  let last : Session (Except Collapse Report) :=
    conclude host plan (schedule pool) >>= fun report => pure (.ok report)
  have hresult : (run b host schedule plan template).result = last.result :=
    Session.result_bind_of_ok hstart _
  have hevents : (run b host schedule plan template).events =
      (start b host plan template).events ++ last.events :=
    Session.events_bind_of_ok hstart _
  have herrors : (run b host schedule plan template).events.filter (·.level = .error) =
      (schedule pool).casualties.map .workerPanicked := by
    rw [hevents, Session.events_bind_pure, List.filter_append,
      filter_error_of_calm (start_calm hcheck hallocate template), List.nil_append,
      errors_conclude hcalm]
  have hbroken {first : Nat} {others : List Nat}
      (h : (schedule pool).casualties = first :: others) :
      last.result = .error (.workerPanicked first) :=
    Session.result_bind_of_error (conclude_goes_of_broken h).result_eq _
  refine ⟨?_, ?_, herrors, ?_⟩
  · rw [hresult]
    cases hcasualties : (schedule pool).casualties with
    | nil => exact iff_of_true ⟨_, Session.result_bind_of_ok (conclude_goes hcasualties).result_eq _⟩ rfl
    | cons first others =>
      rw [hbroken hcasualties]
      exact iff_of_false nofun (List.cons_ne_nil first others)
  · intro first hfirst
    obtain ⟨others, hothers⟩ := List.head?_eq_some_iff.mp hfirst
    rw [hresult, hbroken hothers]
  · rw [herrors, List.map_map]
    rfl

/-! ## What the workers have done -/

/-- Each nonce below a bound was handed in by one worker, once, and nothing else was handed in. -/
structure EachOnce (template : Template) (bound : UInt64) (actions : List (Nat × Action)) : Prop where
  perm : (submissions (everyone actions)).Perm ((ascending bound.toNat).map template.input)
  distinct : (submissions (everyone actions)).Nodup
  byOneWorker : ∀ value < bound, ∃! i, template.input value ∈ submissions (own i actions)

/-- **What the workers have done** by the time they have all stopped. One that broke off takes nothing away
    from the others. -/
structure Contained (template : Template) (plan : Plan) (actions : List (Nat × Action))
    (p : Pool b) : Prop where
  settled : p.Settled
  ascending : p.casualties.Pairwise (· < ·)
  mem_casualties : ∀ i, i ∈ p.casualties ↔ ∃ w, p.workers[i]? = some w ∧ w.point = .failed
  eachOnce : (∃ w ∈ p.workers, w.point ≠ .failed) → EachOnce template plan.nonces actions

theorem contained_of_settled (hcheck : plan.check = .ok ())
    (hroom : plan.nonces.toNat + plan.threads.toNat < 2 ^ 64) {template : Template}
    {actions : List (Nat × Action)} {p : Pool b}
    (h : p.Orderly template plan.nonces plan.threads.toNat actions) (hsettled : p.Settled) :
    Contained template plan actions p := by
  refine ⟨hsettled, h.numbered.casualties_ascending, fun _ => h.numbered.mem_casualties, ?_⟩
  rintro ⟨w, hw, hwell⟩
  -- a worker that has stopped and not failed has ended
  have hended : ∃ w ∈ p.workers, w.point = .ended := ⟨w, hw, (hsettled w hw).resolve_right hwell⟩
  have hfits := (bounds_of_check hcheck).2
  have hperm := h.submissions_perm_of_ended hroom hsettled hended
  exact ⟨hperm, hperm.nodup_iff.mpr (template.nodup_inputs hfits),
    fun _ hvalue => h.existsUnique_worker_of_ended hroom hfits hsettled hended hvalue⟩

/-! ## Whole sweeps -/

/-- **A sweep whose workers break off wherever they may.** It waits until all its workers have stopped, and
    it can. Then it ends as the workers that have broken off make it end, with the others undisturbed. -/
theorem failures_contained (hcheck : plan.check = .ok ())
    (hroom : plan.nonces.toNat + plan.threads.toNat < 2 ^ 64) {raw : b.Shared}
    (hallocate : (b.allocate plan.options).2 = .ok raw) (htable : table host plan.threads = .ok ())
    (template : Template) :
    ∃ pool, (start b host plan template).result = .ok (.ok pool) ∧
      ∀ actions j, Joining.Steps (.start pool) actions j →
        (∃ rest k, Joining.Steps j rest k ∧ k.Done) ∧
        (j.Done → Contained template plan actions j.pool ∧
          j.takeStock host plan = conclude host plan j.pool ∧
          ∀ schedule : Pool.Schedule b, schedule pool = j.pool →
            Ends j.pool.casualties (run b host schedule plan template)) := by
  have hstart : (start b host plan template).result = _ :=
    result_start_of_allocate hcheck hallocate template
  rw [htable] at hstart
  refine ⟨_, hstart, ?_⟩
  intro actions j hsteps
  have horderly := start_orderly b host plan template (seeded b plan raw)
  have hfaithful := hsteps.faithful (.start horderly.numbered)
  have hreached := Pool.Orderly.of_steps hroom horderly hsteps.pool_steps
  refine ⟨Joining.exists_done hroom hfaithful hreached, ?_⟩
  intro hdone
  refine ⟨contained_of_settled hcheck hroom hreached (hfaithful.settled hdone),
    Joining.takeStock_eq host plan hfaithful hdone, ?_⟩
  intro schedule hschedule
  have hcalm := hsteps.pool_steps.forall_mem_log Worker.level_of_log
    fun _ hevent => absurd hevent List.not_mem_nil
  rw [← hschedule] at hcalm ⊢
  exact ends_of_start hcheck hallocate hstart hcalm

/-- Hashers that know their number. Every call on the first one breaks off. -/
def frail : Backend where
  Shared := Unit
  Hasher := Nat
  allocate _ := ([], .ok ())
  seed shared _ _ := ([], shared)
  hasher _ index := index
  hash index _ := (if index = 0 then .panicked else .done default, index)
  prime index _ := (if index = 0 then .panicked else .done (), index)
  advance index _ := (if index = 0 then .panicked else .done default, index)
  drain index := (if index = 0 then .panicked else .done (some default), index)
  release index := if index = 0 then .panicked else .done ()
  commitment _ digest := .done digest

/-- Two workers share two nonces. -/
def frailPlan : Plan := { Plan.standard with threads := 2, nonces := 2 }

/-- The first of two workers breaks off as it hands 0 in, and is joined before the second begins. -/
theorem joined_after_first_breaks_off :
    ∃ actions j, Joining.Steps (.start (firstPool frail plainHost frailPlan .standard ())) actions j ∧
      j.Done ∧ j.pool.casualties = [0] ∧ ∃ w ∈ j.pool.workers, w.point ≠ .failed :=
  ⟨_, _, .work (i := 0) rfl <| .work (i := 0) rfl <| .join rfl <|
    .work (i := 1) rfl <| .work (i := 1) rfl <| .work (i := 1) rfl <| .work (i := 1) rfl <|
    .work (i := 1) rfl <| .work (i := 1) rfl <| .work (i := 1) rfl <| .work (i := 1) rfl <|
    .join rfl <| .refl _, rfl, rfl, _, .tail _ (.head _), nofun⟩

/-- Both nonces are handed in, and the sweep fails with the worker that broke off. -/
theorem first_of_two_workers_breaks_off :
    ∃ pool actions j, (start frail plainHost frailPlan .standard).result = .ok (.ok pool) ∧
      Joining.Steps (.start pool) actions j ∧ j.Done ∧
      (run frail plainHost (fun _ => j.pool) frailPlan .standard).result = .error (.workerPanicked 0) ∧
      (submissions (everyone actions)).Perm [Template.standard.input 0, Template.standard.input 1] := by
  obtain ⟨pool, hstart, hruns⟩ := @failures_contained frail plainHost frailPlan rfl (by decide) () rfl rfl
    .standard
  have hfirst : (start frail plainHost frailPlan .standard).result = _ :=
    @result_start_of_allocate frail plainHost frailPlan rfl () rfl .standard
  obtain rfl : _ = pool := Except.ok.inj (Except.ok.inj (hfirst.symm.trans hstart))
  obtain ⟨actions, j, hsteps, hdone, hbroken, hsome⟩ := joined_after_first_breaks_off
  obtain ⟨hcontained, -, hends⟩ := (hruns actions j hsteps).2 hdone
  have hend := hends (fun _ => j.pool) rfl
  rw [hbroken] at hend
  exact ⟨_, actions, j, hstart, hsteps, hdone, hend.failure_eq 0 rfl,
    (hcontained.eachOnce hsome).perm⟩

end Sweep

end NonceSweep
