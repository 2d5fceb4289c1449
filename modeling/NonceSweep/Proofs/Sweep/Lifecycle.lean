import NonceSweep.Proofs.Sweep.Containment

/-!
# The ways that a sweep can go

A sweep goes one of five ways. Which one it is comes out in this order: its plan is turned down, its engine is
not allocated, there is no table for the handles of its workers, one of its workers breaks off, or it ends
with a report. Each way has phases and calls of its own. The engine is seeded once, before the first hasher is
made, and there is one hasher for each worker; where no worker was made, there are no hashers either.

Nothing is assumed of the backend, nor that numbers do not start again at zero.

## Main results

- `Sweep.run_goes_of_start`: what the workers make of a sweep that has come as far as its pool
- `Sweep.goes_one_way`: a whole sweep under any interleaving
-/

namespace NonceSweep

/-- No phase is opened by what workers log. -/
theorem Worker.phase?_of_log {b : Backend} {w w' : Worker b} {next : UInt64} {event : Event}
    (h : w.step next = some (.log event, w')) : event.phase? = none := by
  cases move_of_step h with
  | @bind processor allowed hpoint => cases allowed <;> rfl
  | leave hpoint => rfl

namespace Sweep

variable {b : Backend} {host : Host} {plan : Plan}

/-! ## Whole sweeps -/

/-- A sweep whose plan is turned down leaves nothing in its journal. -/
theorem run_of_fault {fault : PlanFault} (hcheck : plan.check = .error fault) (schedule : Pool.Schedule b)
    (template : Template) : run b host schedule plan template = ⟨[], .error (.plan fault)⟩ := by
  have hconfigure : configure plan = ⟨[], .error (.plan fault)⟩ := by
    unfold configure
    rw [hcheck]
    rfl
  have hstart : start b host plan template = ⟨[], .error (.plan fault)⟩ := by
    unfold start
    rw [hconfigure]
    rfl
  unfold run
  rw [hstart]
  rfl

/-- How a sweep goes on is up to the casualties among its workers. -/
theorem run_goes_of_start {template : Template} {pool : Pool b} {calls : List SetupCall}
    (hstart : (start b host plan template).Goes (.ok (.ok pool)) [.configured, .engineReady, .running] calls)
    {schedule : Pool.Schedule b} (hquiet : ∀ event ∈ (schedule pool).ledger.log, event.phase? = none) :
    match (schedule pool).casualties with
    | first :: _ => (run b host schedule plan template).Goes (.error (.workerPanicked first))
        [.configured, .engineReady, .running] calls
    | [] => (run b host schedule plan template).Goes (.ok (.ok (reportOf host plan (schedule pool))))
        [.configured, .engineReady, .running, .joined, .reported] calls := by
  have hnone := List.filterMap_eq_nil_iff.mpr hquiet
  -- no call is made in the last stage
  rw [← List.append_nil calls]
  cases hcasualties : (schedule pool).casualties with
  | cons first others =>
    have hlast : (conclude host plan (schedule pool)).Goes _ _ _ := conclude_goes_of_broken hcasualties
    rw [hnone] at hlast
    exact hstart.bind (hlast.bind_of_error _)
  | nil =>
    have hlast : (conclude host plan (schedule pool)).Goes _ _ _ := conclude_goes hcasualties
    rw [hnone] at hlast
    exact hstart.bind (hlast.bind_pure _)

/-- **A sweep goes one of five ways**, whatever its plan, its engine and its template, and however its workers
    are interleaved. -/
theorem goes_one_way (b : Backend) (host : Host) (plan : Plan) (template : Template)
    {schedule : Pool.Schedule b} (hcomplete : schedule.IsComplete) :
    match plan.check with
    -- the plan is turned down: there is no call, and nothing is logged
    | .error fault => run b host schedule plan template = ⟨[], .error (.plan fault)⟩
    | .ok () =>
      match (b.allocate plan.options).2 with
      -- the engine is not allocated: no worker is made
      | .error cause =>
        (run b host schedule plan template).Goes (.error (.allocation cause)) [.configured, .failed]
          [.allocate plan.options] ∧
        ∀ pool, (start b host plan template).result ≠ .ok (.ok pool)
      | .ok _ =>
        match table host plan.threads with
        -- there is no table for the handles: no worker is made
        | .error collapse =>
          (run b host schedule plan template).Goes (.ok (.error collapse)) [.configured, .engineReady, .running]
            [.allocate plan.options, .seed (Bytes.ofWord32 plan.seed) plan.initThreads.toNat] ∧
          ∀ pool, (start b host plan template).result ≠ .ok (.ok pool)
        -- all workers are made, and all of them stop
        | .ok () =>
          ∃ pool, (start b host plan template).result = .ok (.ok pool) ∧
            pool.workers.length = plan.threads.toNat ∧
            (∃ actions, Pool.Steps pool actions (schedule pool)) ∧ (schedule pool).Settled ∧
            match (schedule pool).casualties with
            | first :: _ => (run b host schedule plan template).Goes (.error (.workerPanicked first))
                [.configured, .engineReady, .running] (setupCalls plan)
            | [] => (run b host schedule plan template).Goes (.ok (.ok (reportOf host plan (schedule pool))))
                [.configured, .engineReady, .running, .joined, .reported] (setupCalls plan) := by
  cases hcheck : plan.check with
  | error fault => exact run_of_fault hcheck schedule template
  | ok =>
    cases hallocate : (b.allocate plan.options).2 with
    | error cause =>
      have hstart : (start b host plan template).Goes _ _ _ := start_goes_of_error hcheck hallocate template
      refine ⟨hstart.bind_of_error _, ?_⟩
      rw [hstart.result_eq]
      exact fun _ => nofun
    | ok raw =>
      cases htable : table host plan.threads with
      | error collapse =>
        have hstart := start_goes_of_collapse hcheck hallocate htable template
        refine ⟨hstart.bind (.pure _), ?_⟩
        rw [hstart.result_eq]
        exact fun _ => nofun
      | ok =>
        have hstart := start_goes hcheck hallocate htable template
        obtain ⟨hsettled, actions, hsteps⟩ := hcomplete (firstPool b host plan template (seeded b plan raw))
        have hquiet := hsteps.forall_mem_log Worker.phase?_of_log fun _ hevent => absurd hevent List.not_mem_nil
        exact ⟨_, hstart.result_eq, length_firstPool template, ⟨actions, hsteps⟩, hsettled,
          run_goes_of_start hstart hquiet⟩

/-- More workers than any table has room for. -/
def crowdedPlan : Plan := { Plan.standard with threads := 384307168202282326, nonces := 0 }

/-- Such a plan passes its check, and its sweep comes neither to a report nor to a failure. -/
theorem crowded_sweep_collapses :
    crowdedPlan.check = .ok () ∧
    (run (.bundled .standard .sequential) plainHost Pool.inTurn crowdedPlan .standard).result =
      .ok (.error .tooLarge) ∧
    (∀ report, (run (.bundled .standard .sequential) plainHost Pool.inTurn crowdedPlan .standard).result ≠
      .ok (.ok report)) ∧
    ∀ failure, (run (.bundled .standard .sequential) plainHost Pool.inTurn crowdedPlan .standard).result ≠
      .error failure := by
  have hcheck : crowdedPlan.check = .ok () := rfl
  have htable : table plainHost crowdedPlan.threads = .error .tooLarge := rfl
  have hstart : (start (.bundled .standard .sequential) plainHost crowdedPlan .standard).result = _ :=
    (start_goes_of_collapse hcheck rfl htable .standard).result_eq
  have hresult : (run (.bundled .standard .sequential) plainHost Pool.inTurn crowdedPlan .standard).result =
      .ok (.error .tooLarge) := Session.result_bind_of_ok hstart _
  refine ⟨hcheck, hresult, ?_, ?_⟩
  · rw [hresult]
    exact fun _ => nofun
  · rw [hresult]
    exact fun _ => nofun

/-- Three workers share five nonces: their sweep passes through all phases, and its engine is seeded once. -/
theorem small_sweep_through_all_phases :
    ∃ report, (run (.bundled .standard .sequential) plainHost Pool.inTurn smallPlan .standard).Goes
      (.ok (.ok report)) [.configured, .engineReady, .running, .joined, .reported]
      [.allocate .standard, .seed (Bytes.ofWord32 0) 1, .hasher 0, .hasher 1, .hasher 2] := by
  obtain ⟨pool, hstart, -, ⟨actions, hsteps⟩, -, hgoes⟩ := goes_one_way (.bundled .standard .sequential) plainHost
    smallPlan .standard Pool.inTurn_isComplete
  have hprepared := Backend.bundled_prepared .standard .sequential .standard smallPlan
  have hfirst := @result_start _ (Backend.bundledTask .standard .sequential _ .standard) plainHost smallPlan _ rfl
    hprepared rfl
  obtain rfl : _ = pool := Except.ok.inj (Except.ok.inj (hfirst.symm.trans hstart))
  have hwell := Pool.Sound.none_failed (Backend.bundled_honoured .standard .sequential _ .standard)
    ((Backend.bundled_unbroken .standard .sequential _ .standard).steady _) (by decide) (start_sound plainHost hprepared)
    start_well hsteps
  rw [casualties_eq_nil hwell] at hgoes
  exact ⟨_, hgoes⟩

end Sweep

end NonceSweep
