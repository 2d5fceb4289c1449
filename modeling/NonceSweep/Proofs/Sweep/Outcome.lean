import NonceSweep.Proofs.Engine.Bundled
import NonceSweep.Proofs.Journal.Sessions
import NonceSweep.Proofs.Pool.Account
import NonceSweep.Proofs.Pool.InTurn
import NonceSweep.Proofs.Pool.Settling
import NonceSweep.Sweep.Stages

/-!
# What a sweep comes to

A sweep whose engine can be set up and whose calls never break off ends with a report, however its workers
are interleaved. The report accounts for every nonce below the bound, and for no other.

## Main results

- `Sweep.start_goes`, `Sweep.conclude_goes`: how the stages go, with a lemma for each way in which they can end
- `Sweep.start_sound`: what the first three stages leave
- `Sweep.accounts_of_settled`: what is reported of a pool that has settled
- `Sweep.run_accounts_for_all_nonces`: a whole sweep under any interleaving
-/

namespace NonceSweep

namespace Sweep

variable {b : Backend} {task : Task b} {host : Host} {plan : Plan} {shared : b.Shared}

/-! ## The first three stages -/

theorem configure_goes (hcheck : plan.check = .ok ()) : (configure plan).Goes (.ok ()) [.configured] [] := by
  unfold configure
  rw [hcheck]
  exact .log _

/-- The shared part of an engine, seeded as a plan asks. -/
def seeded (b : Backend) (plan : Plan) (raw : b.Shared) : b.Shared :=
  (b.seed raw plan.engineSeed plan.initThreads.toNat).2

theorem prepare_goes {raw : b.Shared} (hallocate : (b.allocate plan.options).2 = .ok raw) :
    (prepare b host plan).Goes (.ok (seeded b plan raw)) [.engineReady]
      [.allocate plan.options, .seed plan.engineSeed plan.initThreads.toNat] := by
  have hfirst := Session.Goes.allocate b plan.options
  rw [hallocate] at hfirst
  exact hfirst.bind ((Session.Goes.seed b plan raw).bind ((Session.Goes.log _).bind (.pure _)))

/-- An engine that is not allocated is not seeded. -/
theorem prepare_goes_of_error {cause : Engine.AllocationFailure}
    (hallocate : (b.allocate plan.options).2 = .error cause) :
    (prepare b host plan).Goes (.error (.allocation cause)) [.failed] [.allocate plan.options] := by
  have hfirst := Session.Goes.allocate b plan.options
  rw [hallocate] at hfirst
  exact hfirst.bind ((Session.Goes.log _).bind (.fail _))

/-- The worker of a plan with a certain number. -/
def worker (b : Backend) (host : Host) (plan : Plan) (template : Template) (shared : b.Shared)
    (index : Nat) : Worker b :=
  .new index plan.strategy plan.nonces (b.hasher shared index) template (firstPoint host plan index)

/-- One hasher is made for each worker. -/
theorem makeWorkers_goes (template : Template) (shared : b.Shared) (count index : Nat) :
    (makeWorkers b host plan template shared count index).Goes
      (.ok ((List.range' index count).map (worker b host plan template shared))) []
      ((List.range' index count).map .hasher) := by
  induction count generalizing index with
  | zero => exact .pure []
  | succ count ih => exact (Session.Goes.hasher b shared index).bind ((ih (index + 1)).bind_pure _)

/-- The pool that a plan starts with. -/
def firstPool (b : Backend) (host : Host) (plan : Plan) (template : Template) (shared : b.Shared) :
    Pool b :=
  ⟨(List.range' 0 plan.threads.toNat).map (worker b host plan template shared), .startingAt 0⟩

theorem launch_goes (htable : table host plan.threads = .ok ()) (template : Template) (shared : b.Shared) :
    (launch b host plan template shared).Goes (.ok (.ok (firstPool b host plan template shared))) [.running]
      ((List.range' 0 plan.threads.toNat).map .hasher) := by
  unfold launch
  rw [htable]
  exact (Session.Goes.log _).bind ((makeWorkers_goes template shared _ 0).bind_pure _)

/-- Without a table for their handles no workers are made. -/
theorem launch_goes_of_error {collapse : Collapse} (htable : table host plan.threads = .error collapse)
    (template : Template) (shared : b.Shared) :
    (launch b host plan template shared).Goes (.ok (.error collapse)) [.running] [] := by
  unfold launch
  rw [htable]
  exact (Session.Goes.log _).bind (.pure _)

/-- The calls that set up an engine for a plan: it is allocated, then seeded with four bytes, and then makes
    a hasher for each worker. -/
def setupCalls (plan : Plan) : List SetupCall :=
  .allocate plan.options :: .seed (Bytes.ofWord32 plan.seed) plan.initThreads.toNat ::
    (List.range' 0 plan.threads.toNat).map .hasher

section Start

variable (hcheck : plan.check = .ok ())

include hcheck

theorem start_goes_of_error {cause : Engine.AllocationFailure}
    (hallocate : (b.allocate plan.options).2 = .error cause) (template : Template) :
    (start b host plan template).Goes (.error (.allocation cause)) [.configured, .failed]
      [.allocate plan.options] :=
  (configure_goes hcheck).bind ((prepare_goes_of_error hallocate).bind_of_error _)

variable {raw : b.Shared} (hallocate : (b.allocate plan.options).2 = .ok raw)

include hallocate

theorem start_goes_of_collapse {collapse : Collapse} (htable : table host plan.threads = .error collapse)
    (template : Template) :
    (start b host plan template).Goes (.ok (.error collapse)) [.configured, .engineReady, .running]
      [.allocate plan.options, .seed (Bytes.ofWord32 plan.seed) plan.initThreads.toNat] :=
  (configure_goes hcheck).bind ((prepare_goes hallocate).bind (launch_goes_of_error htable template _))

/-- A sweep gets as far as a pool of workers that have done nothing yet. -/
theorem start_goes (htable : table host plan.threads = .ok ()) (template : Template) :
    (start b host plan template).Goes (.ok (.ok (firstPool b host plan template (seeded b plan raw))))
      [.configured, .engineReady, .running] (setupCalls plan) :=
  (configure_goes hcheck).bind ((prepare_goes hallocate).bind (launch_goes htable template _))

/-- Workers are made if there is a table for their handles. -/
theorem result_start_of_allocate (template : Template) :
    (start b host plan template).result =
      .ok ((table host plan.threads).map fun _ =>
        firstPool b host plan template (seeded b plan raw)) := by
  cases htable : table host plan.threads with
  | error collapse => exact (start_goes_of_collapse hcheck hallocate htable template).result_eq
  | ok => exact (start_goes hcheck hallocate htable template).result_eq

end Start

theorem result_start (hcheck : plan.check = .ok ()) (hprepared : task.Prepared plan shared)
    (htable : table host plan.threads = .ok ()) :
    (start b host plan task.template).result =
      .ok (.ok (firstPool b host plan task.template shared)) := by
  obtain ⟨raw, hallocate, rfl⟩ := hprepared.setUp
  rw [result_start_of_allocate hcheck hallocate task.template, htable]
  rfl

theorem firstPoint_cases (host : Host) (plan : Plan) (index : Nat) :
    firstPoint host plan index = .claiming false ∨
      ∃ processor allowed, firstPoint host plan index = .binding processor allowed := by
  unfold firstPoint
  split
  · exact .inl rfl
  · exact .inr ⟨_, _, rfl⟩

/-- Worker `i` stands at place `i`, as numbers are given in order. -/
theorem eq_worker_of_firstPool {template : Template} {i : Nat} {w : Worker b}
    (hw : (firstPool b host plan template shared).workers[i]? = some w) :
    w = worker b host plan template shared i := by
  change ((List.range' 0 plan.threads.toNat).map _)[i]? = some w at hw
  rw [List.getElem?_map, Option.map_eq_some_iff] at hw
  obtain ⟨index, hindex, rfl⟩ := hw
  obtain ⟨hi, rfl⟩ := List.getElem?_eq_some_iff.mp hindex
  simp

theorem length_firstPool (template : Template) :
    (firstPool b host plan template shared).workers.length = plan.threads.toNat := by
  rw [firstPool, List.length_map, List.length_range']

/-- The books of the new workers are in order. -/
theorem start_sound (host : Host) (hprepared : task.Prepared plan shared) :
    (firstPool b host plan task.template shared).Sound task plan.strategy plan.nonces
      plan.threads.toNat [] := by
  apply Pool.Sound.start (length_firstPool task.template)
  intro i w hw
  rw [eq_worker_of_firstPool hw]
  exact ⟨rfl, rfl, rfl, Worker.Books.new (hprepared.fresh i) (firstPoint_cases host plan i)⟩

/-- The new workers have nothing undone, whatever their hashers will do. -/
theorem start_orderly (b : Backend) (host : Host) (plan : Plan) (template : Template)
    (shared : b.Shared) :
    (firstPool b host plan template shared).Orderly template plan.nonces plan.threads.toNat [] := by
  apply Pool.Orderly.start (length_firstPool template)
  intro i w hw
  rw [eq_worker_of_firstPool hw]
  exact ⟨rfl, rfl, Worker.Diligent.new (firstPoint_cases host plan i)⟩

theorem start_well :
    ∀ w ∈ (firstPool b host plan task.template shared).workers, w.point ≠ .failed := by
  intro w hw
  obtain ⟨index, -, rfl⟩ := List.mem_map.mp hw
  show firstPoint host plan index ≠ .failed
  rcases firstPoint_cases host plan index with hpoint | ⟨processor, allowed, hpoint⟩
  · rw [hpoint]
    exact Point.noConfusion
  · rw [hpoint]
    exact Point.noConfusion

/-! ## The report -/

/-- A report accounts for what the workers did: each nonce below the bound was handed in by one worker,
    once, and no other nonce by any. -/
structure Accounts (task : Task b) (plan : Plan) (actions : List (Nat × Action))
    (report : Report) : Prop where
  fingerprint : report.fingerprint =
    .xorAll ((ascending plan.nonces.toNat).map (task.share plan.strategy.commits))
  submissions : (submissions (everyone actions)).Perm
    ((ascending plan.nonces.toNat).map task.input)
  distinct : (NonceSweep.submissions (everyone actions)).Nodup
  byOneWorker : ∀ value < plan.nonces,
    ∃! i, task.input value ∈ NonceSweep.submissions (own i actions)
  length_perWorker : report.perWorker.length = plan.threads.toNat
  sum_perWorker : (report.perWorker.map UInt64.toNat).sum = plan.nonces.toNat
  hashes : report.hashes = plan.nonces
  claims : report.claims.toNat = plan.nonces.toNat + plan.threads.toNat
  strategy : report.strategy = plan.strategy
  threads : report.threads = plan.threads
  nonces : report.nonces = plan.nonces

theorem casualties_eq_nil {pool : Pool b} (hwell : ∀ w ∈ pool.workers, w.point ≠ .failed) :
    pool.casualties = [] := by
  have hnone : pool.workers.filter (·.point = .failed) = [] := by
    rw [List.filter_eq_nil_iff]
    intro w hw hfailed
    exact hwell w hw (of_decide_eq_true hfailed)
  rw [Pool.casualties, hnone]
  rfl

/-- What is reported of a pool in which no worker has broken off. -/
def reportOf (host : Host) (plan : Plan) (pool : Pool b) : Report :=
  { fingerprint := pool.ledger.accumulator.value
    strategy := plan.strategy
    threads := plan.threads
    nonces := plan.nonces
    hashes := pool.total
    perWorker := pool.counts
    claims := pool.ledger.dispenser.next
    elapsed := host.sweepTime }

theorem conclude_goes {pool : Pool b} (h : pool.casualties = []) :
    (conclude host plan pool).Goes (.ok (reportOf host plan pool))
      (pool.ledger.log.filterMap Event.phase? ++ [.joined, .reported]) [] := by
  unfold conclude
  rw [h]
  exact (Session.Goes.log _).bind ((Session.Goes.log _).bind (.pure _))

/-- The first worker that has broken off is the failure. -/
theorem conclude_goes_of_broken {pool : Pool b} {first : Nat} {others : List Nat}
    (h : pool.casualties = first :: others) :
    (conclude host plan pool).Goes (.error (.workerPanicked first))
      (pool.ledger.log.filterMap Event.phase?) [] := by
  have hcasualties : (Session.log ((first :: others).map .workerPanicked)).Goes (.ok ()) [] [] := by
    apply Session.Goes.log_quiet
    intro event hevent
    obtain ⟨i, -, rfl⟩ := List.mem_map.mp hevent
    rfl
  unfold conclude
  rw [h, ← List.append_nil (pool.ledger.log.filterMap Event.phase?)]
  exact (Session.Goes.log _).bind (hcasualties.bind (.fail _))

/-- A sweep whose pool has settled ends with the report of that pool. -/
theorem result_run (hcheck : plan.check = .ok ()) (hprepared : task.Prepared plan shared)
    (htable : table host plan.threads = .ok ()) {schedule : Pool.Schedule b}
    (hwell : ∀ w ∈ (schedule (firstPool b host plan task.template shared)).workers,
      w.point ≠ .failed) :
    (run b host schedule plan task.template).result =
      .ok (.ok (reportOf host plan (schedule (firstPool b host plan task.template shared)))) := by
  unfold run
  rw [Session.result_bind_of_ok (result_start hcheck hprepared htable)]
  show (conclude host plan _ >>= _).result = _
  rw [Session.result_bind_of_ok (conclude_goes (casualties_eq_nil hwell)).result_eq]
  rfl

/-- What a plan that passes its check promises. -/
theorem bounds_of_check (hcheck : plan.check = .ok ()) :
    0 < plan.threads.toNat ∧ plan.nonces.toNat ≤ 2 ^ 32 := by
  unfold Plan.check at hcheck
  split at hcheck
  case isTrue => cases hcheck
  case isFalse hthreads =>
    split at hcheck
    case isTrue => cases hcheck
    case isFalse =>
      split at hcheck
      case isTrue => cases hcheck
      case isFalse hnonces =>
        constructor
        · apply Nat.pos_of_ne_zero
          intro hzero
          exact hthreads (UInt64.toNat_inj.mp hzero)
        · exact UInt64.le_iff_toNat_le.mp (UInt64.not_lt.mp hnonces)

/-- **The report of a pool that has settled accounts for every nonce.** -/
theorem accounts_of_settled (hcheck : plan.check = .ok ())
    (hroom : plan.nonces.toNat + plan.threads.toNat < 2 ^ 64) {actions : List (Nat × Action)}
    {pool : Pool b} (h : pool.Sound task plan.strategy plan.nonces plan.threads.toNat actions)
    (hsettled : pool.Settled) (hwell : ∀ w ∈ pool.workers, w.point ≠ .failed) :
    Accounts task plan actions (reportOf host plan pool) := by
  obtain ⟨hcount, hfits⟩ := bounds_of_check hcheck
  -- no worker has failed, so all of those that have stopped have ended
  have hended : ∀ w ∈ pool.workers, w.point = .ended := by
    intro w hw
    exact (hsettled w hw).resolve_right (hwell w hw)
  have hsums := h.sum_counts hended hroom hcount
  refine {
    fingerprint := ?_
    submissions := h.submissions_perm hended hroom hcount
    distinct := h.submissions_nodup hended hfits hroom hcount
    byOneWorker := fun value hvalue => h.existsUnique_worker hended hfits hroom hcount hvalue
    length_perWorker := ?_
    sum_perWorker := hsums.1
    hashes := hsums.2
    claims := ?_
    strategy := rfl
    threads := rfl
    nonces := rfl }
  · show pool.ledger.accumulator.value = _
    rw [h.value_eq]
    exact Fingerprint.xorAll_perm (h.merges_perm hended hroom hcount)
  · show pool.counts.length = _
    rw [Pool.counts, List.length_map, h.length_eq]
  · show pool.ledger.dispenser.next.toNat = _
    rw [h.next_eq, h.orderly.taken_eq_of_ended hroom hcount hended]
    exact UInt64.toNat_ofNat_of_lt' hroom

/-! ## Whole sweeps -/

/-- Under a complete schedule there is a report, and it accounts for every nonce. -/
theorem exists_report (honoured : task.Honoured) (steady : task.Steady plan.strategy.commits)
    (hprepared : task.Prepared plan shared) (hcheck : plan.check = .ok ())
    (hroom : plan.nonces.toNat + plan.threads.toNat < 2 ^ 64)
    (htable : table host plan.threads = .ok ()) {schedule : Pool.Schedule b}
    (hcomplete : schedule.IsComplete) :
    ∃ actions report, (run b host schedule plan task.template).result = .ok (.ok report) ∧
      Accounts task plan actions report := by
  have hstart := start_sound host hprepared
  -- the pool in which the schedule leaves off is reached by steps, so the invariant holds of it
  obtain ⟨hsettled, actions, hsteps⟩ := hcomplete (firstPool b host plan task.template shared)
  have hwell := Pool.Sound.none_failed honoured steady hroom hstart start_well hsteps
  refine ⟨actions, _, result_run hcheck hprepared htable hwell, ?_⟩
  exact accounts_of_settled hcheck hroom (.of_steps honoured hroom hstart hsteps) hsettled hwell

/-- **A whole sweep under any interleaving.** -/
theorem run_accounts_for_all_nonces (honoured : task.Honoured) (unbroken : task.Unbroken)
    (hprepared : task.Prepared plan shared) (hcheck : plan.check = .ok ())
    (hroom : plan.nonces.toNat + plan.threads.toNat < 2 ^ 64)
    (htable : table host plan.threads = .ok ()) :
    ∃ pool, (start b host plan task.template).result = .ok (.ok pool) ∧
      (∀ actions between, Pool.Steps pool actions between →
        actions.length ≤ plan.threads.toNat * (4 * plan.nonces.toNat + 10) ∧
        ∃ rest final, Pool.Steps between rest final ∧ final.Settled) ∧
      ∀ actions final, Pool.Steps pool actions final → final.Settled →
        ∀ schedule : Pool.Schedule b, schedule pool = final →
          ∃ report, (run b host schedule plan task.template).result = .ok (.ok report) ∧
            Accounts task plan actions report := by
  have hstart := start_sound host hprepared
  refine ⟨_, result_start hcheck hprepared htable, ?_, ?_⟩
  · intro actions between hsteps
    constructor
    · -- what is left to do at the start bounds what can be done
      have hlength := hstart.orderly.length_add_work_le hroom hsteps
      have hwork := hstart.orderly.work_le
      omega
    · exact (Pool.Sound.of_steps honoured hroom hstart hsteps).orderly.exists_settled hroom
  · intro actions final hsteps hsettled schedule hschedule
    have hwell := Pool.Sound.none_failed honoured (unbroken.steady _) hroom hstart start_well hsteps
    subst hschedule
    refine ⟨_, result_run hcheck hprepared htable hwell, ?_⟩
    exact accounts_of_settled hcheck hroom (.of_steps honoured hroom hstart hsteps) hsettled hwell

/-- A host with one processor, to which no worker is bound, and little memory. -/
def plainHost : Host :=
  { processors := 1, features := ⟨false, false, false⟩, memory := 1024, allows := fun _ => false
    setupTime := .zero, sweepTime := .zero }

/-- Five nonces for three workers. -/
def smallPlan : Plan := { Plan.standard with threads := 3, nonces := 5 }

/-- Three workers share five nonces, one worker after the other. -/
theorem run_accounts_for_five_nonces :
    ∃ report, (run (.bundled .standard .sequential) plainHost Pool.inTurn smallPlan
        .standard).result = .ok (.ok report) ∧
      report.hashes = 5 ∧ report.claims.toNat = 8 ∧ report.perWorker.length = 3 := by
  obtain ⟨pool, -, -, hruns⟩ := @run_accounts_for_all_nonces _ _ plainHost smallPlan _
    (Backend.bundled_honoured .standard .sequential _ .standard)
    (Backend.bundled_unbroken .standard .sequential _ .standard)
    (Backend.bundled_prepared .standard .sequential .standard smallPlan) rfl (by decide) rfl
  obtain ⟨hsettled, actions, hsteps⟩ := Pool.inTurn_isComplete pool
  obtain ⟨report, hresult, haccounts⟩ := hruns actions _ hsteps hsettled Pool.inTurn rfl
  exact ⟨report, hresult, haccounts.hashes, haccounts.claims, haccounts.length_perWorker⟩

end Sweep

end NonceSweep
