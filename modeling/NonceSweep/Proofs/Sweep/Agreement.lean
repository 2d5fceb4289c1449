import NonceSweep.Proofs.Sweep.Independence

/-!
# The check of the two profiles agrees with sweeps

The check hashes one input by itself, with an engine that is set up for this alone; a sweep patches numbers into
candidates, and its workers race for them and may hash in batches. Both come to the same hash all the same. Of
the engine nothing is assumed but that its hashers are correct: it may be short of memory, and it may hash
differently under each profile.

## Main results

- `Contract.bundled_kept`: the bundled engine is one of those whose hashers are correct
- `Sweep.reports_of_keeps`: a sweep for one nonce reports the hash of the template
- `ProfileCheck.agrees_with_sweeps`: when the check fails, and what it has to do with sweeps
-/

namespace NonceSweep

/-! ## Engines with correct hashers -/

/-- What the hashers of an engine are said to do. It may depend on the store that they were made for. -/
structure Contract (b : Backend) where
  /-- The hash of an input. -/
  hashOf : b.Shared → ByteArray → Digest
  /-- A hasher holds back an input, or none. -/
  Holds : b.Shared → b.Hasher → Option ByteArray → Prop

namespace Contract

variable {b : Backend}

/-- The task of a sweep on a store. A commitment is whatever the engine makes of it. -/
def task (c : Contract b) (s : b.Shared) (template : Template) : Task b where
  template := template
  hashOf := c.hashOf s
  commit x digest :=
    match b.commitment x digest with
    | .done answer => answer
    | .panicked => digest
  Holds := c.Holds s

/-- The hashers of a store keep a contract: they hash as they should, and none of their calls breaks off. -/
structure Keeps (c : Contract b) (s : b.Shared) : Prop where
  honoured : ∀ template, (c.task s template).Honoured
  steady : ∀ template, (c.task s template).Steady false
  fresh : ∀ index, c.Holds s (b.hasher s index) none

/-- **The contract is kept** on every store that can be set up. It says nothing of commitments. -/
def Kept (c : Contract b) : Prop :=
  ∀ options raw, (b.allocate options).2 = .ok raw → ∀ bytes threads, c.Keeps (b.seed raw bytes threads).2

theorem Keeps.prepared {c : Contract b} {plan : Plan} {raw : b.Shared}
    (h : c.Keeps (Sweep.seeded b plan raw)) (hallocate : (b.allocate plan.options).2 = .ok raw)
    (template : Template) :
    (c.task (Sweep.seeded b plan raw) template).Prepared plan (Sweep.seeded b plan raw) :=
  ⟨⟨raw, hallocate, rfl⟩, h.fresh⟩

/-- The contract of the bundled engine. -/
def bundled (p : Engine.Primitives) (build : Engine.Build) : Contract (.bundled p build) where
  hashOf store := Engine.freshHash p store
  Holds store m slot := Engine.Machine.Shows p store m slot

theorem task_bundled (p : Engine.Primitives) (build : Engine.Build) (store : Engine.Store) (template : Template) :
    (bundled p build).task store template = Backend.bundledTask p build store template := by
  dsimp only [task, bundled, Backend.bundledTask, Backend.bundled]

theorem bundled_kept (p : Engine.Primitives) (build : Engine.Build) : (bundled p build).Kept := by
  intro options raw _ bytes threads
  have hsame := task_bundled p build ((Backend.bundled p build).seed raw bytes threads).2
  refine ⟨?_, ?_, fun _ => Engine.Machine.Shows.new _⟩
  · intro template
    rw [hsame]
    exact Backend.bundled_honoured p build _ template
  · intro template
    rw [hsame]
    exact (Backend.bundled_unbroken p build _ template).steady false

end Contract

/-! ## Sweeps for one nonce -/

/-- The plan for one nonce, without commitments. -/
def Plan.single (plan : Plan) (threads : UInt64) (batched : Bool) : Plan :=
  { plan with threads, nonces := 1, strategy := ⟨batched, false⟩ }

theorem Plan.check_single {plan : Plan} (hcheck : plan.check = .ok ()) {threads : UInt64} (hthreads : threads ≠ 0)
    (batched : Bool) : (plan.single threads batched).check = .ok () := by
  -- the number of workers and the bound are new, and the rest has been checked
  have hinit : plan.initThreads ≠ 0 := by
    rintro hzero
    unfold check at hcheck
    rw [if_pos hzero] at hcheck
    split at hcheck <;> cases hcheck
  unfold check single
  rw [if_neg hthreads, if_neg hinit]
  rfl

namespace Sweep

variable {b : Backend}

/-- **Sweeps for one nonce report a hash**, with any number of workers, in batches or one by one, on any host
    and under any schedule, unless there is no table for the handles of their workers. -/
def SingleReports (b : Backend) (plan : Plan) (template : Template) (hash : Digest) : Prop :=
  ∀ (threads : UInt64) (batched : Bool) (host : Host) (schedule : Pool.Schedule b),
    threads ≠ 0 → threads.toNat + 1 < 2 ^ 64 → schedule.IsComplete →
    match table host threads with
    | .error collapse =>
      (run b host schedule (plan.single threads batched) template).result = .ok (.error collapse)
    | .ok () => ∃ report,
      (run b host schedule (plan.single threads batched) template).result = .ok (.ok report) ∧
        report.fingerprint = .ofHash hash

theorem reports_of_keeps {c : Contract b} {plan : Plan} {raw : b.Shared} (hcheck : plan.check = .ok ())
    (hallocate : (b.allocate plan.options).2 = .ok raw) (hkeeps : c.Keeps (seeded b plan raw))
    (template : Template) :
    SingleReports b plan template (c.hashOf (seeded b plan raw) (template.candidate 0).bytes) := by
  intro threads batched host schedule hthreads hroom hcomplete
  have hsingle := plan.check_single hcheck hthreads batched
  cases htable : table host threads with
  | error collapse =>
    exact Session.result_bind_of_ok (start_goes_of_collapse hsingle hallocate htable template).result_eq _
  | ok =>
    have hkeeps : c.Keeps (seeded b (plan.single threads batched) raw) := hkeeps
    obtain ⟨actions, report, hresult, haccounts⟩ := exists_report (hkeeps.honoured template)
      (hkeeps.steady template) (hkeeps.prepared hallocate template) hsingle (Nat.add_comm 1 _ ▸ hroom) htable
      hcomplete
    refine ⟨report, hresult, ?_⟩
    -- there is but one number below the bound
    rw [haccounts.fingerprint]
    exact Fingerprint.zero_xor _

end Sweep

namespace ProfileCheck

/-- The hash that was found under a profile. -/
def hashOf (check : ProfileCheck) : Engine.Profile → Digest
  | .light => check.light
  | .full => check.full

/-- **The check of the two profiles agrees with sweeps.** It does not look at the profile of the plan. It fails
    if the engine cannot be allocated under the light profile, or else if it cannot be under the full one. If it
    comes to hashes, these are what sweeps for one nonce report under either profile, and with the bundled engine
    they are equal. -/
theorem agrees_with_sweeps {b : Backend} {c : Contract b} (hkept : c.Kept) (plan : Plan) (template : Template) :
    (∀ profile, run b (plan.withProfile profile) template = run b plan template) ∧
    (match (b.allocate (plan.options.withProfile .light)).2, (b.allocate (plan.options.withProfile .full)).2 with
    -- the engine is not tried under the full profile
    | .error cause, _ => (run b plan template).Goes (.error (.allocation cause)) []
        [.allocate (plan.options.withProfile .light)]
    | .ok _, .error cause => (run b plan template).Goes (.error (.allocation cause)) []
        (hashCalls plan .light ++ [.allocate (plan.options.withProfile .full)])
    | .ok _, .ok _ => ∃ check, (run b plan template).Goes (.ok (.done check)) []
        (hashCalls plan .light ++ hashCalls plan .full) ∧
        (plan.check = .ok () → Sweep.SingleReports b plan template (check.hashOf plan.options.profile))) ∧
    ∀ (p : Engine.Primitives) (build : Engine.Build), build.WritesAll →
      ∃ check, (run (.bundled p build) plan template).result = .ok (.done check) ∧ check.agrees = true := by
  refine ⟨fun _ => rfl, ?_, fun _ _ hall => profiles_agree hall plan template⟩
  cases hlight : (b.allocate (plan.options.withProfile .light)).2 with
  | error cause => exact (hashUnder_goes_of_error hlight _).bind_of_error _
  | ok small =>
    have hsmall : c.Keeps (Sweep.seeded b (plan.withProfile .light) small) := hkept _ _ hlight _ _
    cases hfull : (b.allocate (plan.options.withProfile .full)).2 with
    | error cause =>
      exact run_goes_of_full_error (hsmall.honoured template) (hsmall.steady template)
        (hsmall.prepared hlight template) hfull template
    | ok large =>
      have hlarge : c.Keeps (Sweep.seeded b (plan.withProfile .full) large) := hkept _ _ hfull _ _
      refine ⟨_, run_goes (hsmall.honoured template) (hsmall.steady template) (hsmall.prepared hlight template)
        (hlarge.honoured template) (hlarge.steady template) (hlarge.prepared hfull template) template, ?_⟩
      intro hcheck
      -- the plan asks for one of the two profiles
      cases hprofile : plan.options.profile with
      | light =>
        have hsame : plan.options.withProfile .light = plan.options := by
          rw [← hprofile]
          rfl
        exact Sweep.reports_of_keeps hcheck (hsame ▸ hlight) hsmall template
      | full =>
        have hsame : plan.options.withProfile .full = plan.options := by
          rw [← hprofile]
          rfl
        exact Sweep.reports_of_keeps hcheck (hsame ▸ hfull) hlarge template

/-- Three workers that race for one nonce report what the check finds under the light profile. -/
theorem three_workers_agree_with_check :
    ∃ check report,
      (run (.bundled .standard .sequential) Sweep.smallPlan .standard).result = .ok (.done check) ∧
      (Sweep.run (.bundled .standard .sequential) Sweep.plainHost Pool.inTurn (Sweep.smallPlan.single 3 true)
        .standard).result = .ok (.ok report) ∧
      report.fingerprint = .ofHash check.light := by
  obtain ⟨-, ⟨check, hgoes, hsweeps⟩, -⟩ := agrees_with_sweeps (Contract.bundled_kept .standard .sequential)
    Sweep.smallPlan .standard
  obtain ⟨report, hresult, hfingerprint⟩ := hsweeps rfl 3 true Sweep.plainHost Pool.inTurn (by decide) (by decide)
    Pool.inTurn_isComplete
  exact ⟨check, report, hgoes.result_eq, hresult, hfingerprint⟩

end ProfileCheck

end NonceSweep
