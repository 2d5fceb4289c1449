import NonceSweep.Program
import NonceSweep.Proofs.CommandLine.Given
import NonceSweep.Proofs.Engine.Seeding
import NonceSweep.Proofs.Sweep.Profiles

/-!
# Nothing but the seed, the nonces and the commitments matters

With the bundled engine the fingerprint of a sweep is that of a reference computation, in which a new
machine on a light store hashes one nonce after the other. The profile, the other options of the engine,
the threads, the placement of the workers, the way in which they call the engine, the build, the host and
the schedule have no part in it. So the program succeeds whenever the expected fingerprint, if there is one,
is the one of the reference, and the check of the two profiles never stands in the way.

## Main results

- `freshHash_seed`: the hash of an input on any store with a seed
- `Environment.report_of_plan`: a sweep reports the reference fingerprint
- `Environment.profiles_agree`: the check of the two profiles
- `fingerprint_independent_of_options`: two sweeps, and the program
-/

namespace NonceSweep

variable {p : Engine.Primitives}

/-! ## The reference -/

namespace Engine

/-- Stores that follow one seed hash alike. -/
theorem freshHash_of_follows {s s' : Store} {bytes : ByteArray} (h : s.Follows p bytes)
    (h' : s'.Follows p bytes) (input : ByteArray) : freshHash p s input = freshHash p s' input := by
  apply freshHash_congr
  · intro index
    rw [Store.item_of_follows p h, Store.item_of_follows p h']
  · intro input
    rw [Store.seedOf_of_follows p h, Store.seedOf_of_follows p h']

/-- The hash of an input by a new machine on a light store that was seeded once. -/
def lightHash (p : Primitives) (seed : UInt32) (input : ByteArray) : Digest :=
  freshHash p ((Store.allocate .standard).seed p .sequential (Bytes.ofWord32 seed)) input

/-- The profile and the build have no part in a hash. -/
theorem freshHash_seed {build : Build} (hall : build.WritesAll) (s : Store) (seed : UInt32)
    (input : ByteArray) :
    freshHash p (s.seed p build (Bytes.ofWord32 seed)) input = lightHash p seed input :=
  freshHash_of_follows (Store.seed_follows p hall s _)
    (Store.seed_follows p Build.writesAll_sequential _ _) input

end Engine

/-- What a nonce adds to the fingerprint, if it is hashed by the reference. -/
def referenceShare (p : Engine.Primitives) (template : Template) (seed : UInt32) (commits : Bool)
    (value : UInt64) : Fingerprint :=
  let input := (template.candidate value.toUInt32).bytes
  let hash := Engine.lightHash p seed input
  .ofHash (if commits then Engine.commitment p input hash else hash)

/-- The fingerprint of the nonces below a bound. -/
def referenceFingerprint (p : Engine.Primitives) (template : Template) (seed : UInt32)
    (nonces : UInt64) (commits : Bool) : Fingerprint :=
  .xorAll ((ascending nonces.toNat).map (referenceShare p template seed commits))

/-- The hashes that a sweep relies on are those of the reference. -/
theorem hashOf_bundledTask {build : Engine.Build} (hall : build.WritesAll) (s : Engine.Store)
    (template : Template) (plan : Plan) :
    (Backend.bundledTask p build (s.seed p build plan.engineSeed) template).hashOf =
      Engine.lightHash p plan.seed := by
  funext input
  dsimp only [Backend.bundledTask, Plan.engineSeed]
  exact Engine.freshHash_seed hall s plan.seed input

/-- What a nonce adds to the fingerprint of a sweep is what it adds to that of the reference. -/
theorem share_bundledTask {build : Engine.Build} (hall : build.WritesAll) (s : Engine.Store)
    (template : Template) (plan : Plan) (commits : Bool) :
    (Backend.bundledTask p build (s.seed p build plan.engineSeed) template).share commits =
      referenceShare p template plan.seed commits := by
  funext value
  rw [Task.share, hashOf_bundledTask hall]
  rfl

/-! ## Sweeps -/

/-- Where sweeps with the bundled engine take place: in one of its builds, on a host, under a schedule. -/
structure Environment (p : Engine.Primitives) where
  build : Engine.Build
  /-- No item of the dataset is left out. -/
  writesAll : build.WritesAll
  host : Host
  schedule : Pool.Schedule (.bundled p build)
  isComplete : schedule.IsComplete

namespace Environment

variable (e : Environment p)

/-- A plan does not ask for more than there is: numbers do not run out, and the handles of the workers
    find room. -/
structure Fits (plan : Plan) : Prop where
  room : plan.nonces.toNat + plan.threads.toNat < 2 ^ 64
  table : Sweep.table e.host plan.threads = .ok ()

variable {e} {plan : Plan}

/-- **A sweep reports the reference fingerprint.** -/
theorem report_of_plan (hcheck : plan.check = .ok ()) (hfits : e.Fits plan) (template : Template) :
    ∃ report, (Sweep.run (.bundled p e.build) e.host e.schedule plan template).result =
        .ok (.ok report) ∧
      report.fingerprint =
        referenceFingerprint p template plan.seed plan.nonces plan.strategy.commits ∧
      report.hashes = plan.nonces := by
  -- the account of the sweep mentions the plan only by its seed, nonces and commitments
  obtain ⟨actions, report, hresult, haccounts⟩ := Sweep.exists_report
    (Backend.bundled_honoured p e.build _ template) ((Backend.bundled_unbroken p e.build _ template).steady _)
    (Backend.bundled_prepared p e.build template plan) hcheck hfits.room hfits.table e.isComplete
  refine ⟨report, hresult, ?_, haccounts.hashes⟩
  rw [haccounts.fingerprint, share_bundledTask e.writesAll]
  rfl

end Environment

/-! ## The program -/

/-- The check of the two profiles finds that they agree. -/
theorem profiles_agree {build : Engine.Build} (hall : build.WritesAll) (plan : Plan)
    (template : Template) :
    ∃ check, (ProfileCheck.run (.bundled p build) plan template).result = .ok (.done check) ∧
      check.agrees = true := by
  have hresult := (ProfileCheck.run_goes (Backend.bundled_honoured p build _ template)
    ((Backend.bundled_unbroken p build _ template).steady false)
    (Backend.bundled_prepared p build template (plan.withProfile .light))
    (Backend.bundled_honoured p build _ template)
    ((Backend.bundled_unbroken p build _ template).steady false)
    (Backend.bundled_prepared p build template (plan.withProfile .full)) template).result_eq
  -- both hashes are that of the reference, so the check compares it with itself
  rw [hashOf_bundledTask hall, hashOf_bundledTask hall] at hresult
  exact ⟨_, hresult, beq_self_eq_true _⟩

/-- Two parts of a program succeed together. -/
theorem Output.status_andThen (first next : Output) :
    (first.andThen next).status = some 0 ↔ first.status = some 0 ∧ next.status = some 0 := by
  unfold andThen
  by_cases hfirst : first.status = some 0
  · rw [if_pos hfirst]
    exact ⟨fun hnext => ⟨hfirst, hnext⟩, fun hboth => hboth.2⟩
  · rw [if_neg hfirst]
    exact ⟨fun h => absurd h hfirst, fun hboth => absurd hboth.1 hfirst⟩

namespace Program

open CommandLine (Invocation)

theorem status_profiles {build : Engine.Build} (hall : build.WritesAll) (invocation : Invocation)
    (plan : Plan) : (profiles (.bundled p build) invocation plan).status = some 0 := by
  obtain ⟨check, hresult, hagrees⟩ := profiles_agree (p := p) hall plan .standard
  unfold profiles
  -- the check may not be asked for at all
  split
  · rw [hresult]
    show (if check.agrees then _ else _ : Output).status = some 0
    rw [if_pos hagrees]
    rfl
  · rfl

/-- A report is accepted if no fingerprint is expected or it has the expected one. -/
theorem status_verification (invocation : Invocation) (report : Report) :
    (verification invocation report).status = some 0 ↔
      invocation.expect = none ∨ invocation.expect = some report.fingerprint := by
  unfold verification
  cases hexpect : invocation.expect with
  | none => exact ⟨fun _ => .inl rfl, fun _ => rfl⟩
  | some expected =>
    by_cases hsame : report.fingerprint = expected
    · have hcompare : report.compare expected = .ok () := if_pos hsame
      simp only [hcompare, hsame]
      exact ⟨fun _ => .inr trivial, fun _ => rfl⟩
    · have hcompare : report.compare expected =
          .error (.mismatch expected report.fingerprint) := if_neg hsame
      simp only [hcompare]
      constructor
      · intro h
        cases h
      · rintro (h | h)
        · cases h
        · exact absurd (Option.some.inj h).symm hsame

theorem check_of_plan {invocation : Invocation} {features : Engine.Features} {plan : Plan}
    (h : invocation.plan features = .ok plan) : plan.check = .ok () := by
  have hchecked : ∀ candidate : Plan, (candidate.check.map fun _ => candidate) = .ok plan →
      plan.check = .ok () := by
    intro candidate hmap
    cases hcheck : candidate.check with
    | error fault =>
      rw [hcheck] at hmap
      cases hmap
    | ok =>
      rw [hcheck] at hmap
      cases hmap
      exact hcheck
  exact hchecked _ h

theorem parse_of_prologue {host : Host} {arguments : List String} {invocation : Invocation}
    {plan : Plan} (h : prologue host arguments = .ok (invocation, plan)) :
    CommandLine.parse arguments = .ok invocation ∧ invocation.plan host.features = .ok plan := by
  unfold prologue at h
  cases hparse : CommandLine.parse arguments with
  | error stop =>
    rw [hparse] at h
    cases stop <;> cases h
  | ok found =>
    rw [hparse] at h
    dsimp only at h
    cases hplan : found.plan host.features with
    | error fault =>
      rw [hplan] at h
      cases h
    | ok made =>
      rw [hplan] at h
      cases h
      exact ⟨rfl, hplan⟩

/-- **The program succeeds unless another fingerprint than that of the reference is expected.** -/
theorem status_run (e : Environment p) {arguments : List String} {invocation : Invocation}
    {plan : Plan} (h : prologue e.host arguments = .ok (invocation, plan)) (hfits : e.Fits plan) :
    (run (.bundled p e.build) e.host e.schedule arguments).status = some 0 ↔
      invocation.expect = none ∨
        invocation.expect = some
          (referenceFingerprint p .standard plan.seed plan.nonces plan.strategy.commits) := by
  obtain ⟨report, hresult, hfingerprint, -⟩ :=
    Environment.report_of_plan (check_of_plan (parse_of_prologue h).2) hfits .standard
  unfold run
  rw [h]
  dsimp only
  rw [hresult, Output.status_andThen, epilogue, Output.status_andThen, Output.status_andThen,
    status_verification, hfingerprint]
  constructor
  · intro hall
    exact hall.2.2
  · intro hexpect
    exact ⟨rfl, ⟨rfl, status_profiles e.writesAll invocation plan⟩, hexpect⟩

/-- The same in terms of the arguments: the text of the expected fingerprint is compared by what it is
    read as. -/
theorem status_run_arguments (e : Environment p) {arguments : List String} {invocation : Invocation}
    {plan : Plan} (h : prologue e.host arguments = .ok (invocation, plan)) (hfits : e.Fits plan) :
    (run (.bundled p e.build) e.host e.schedule arguments).status = some 0 ↔
      ∀ text, CommandLine.textOf .expect arguments = some text → Fingerprint.parse text =
        .ok (referenceFingerprint p .standard plan.seed plan.nonces plan.strategy.commits) := by
  obtain ⟨habsent, hgiven⟩ := CommandLine.expect_of_parse (parse_of_prologue h).1
  rw [status_run e h hfits]
  -- a fingerprint is expected if and only if a text is given for it
  cases htext : CommandLine.textOf .expect arguments with
  | none =>
    constructor
    · intro _ text habsurd
      cases habsurd
    · intro
      exact .inl (habsent htext)
  | some text =>
    obtain ⟨fingerprint, hparse, hexpect⟩ := hgiven text htext
    constructor
    · rintro (hnone | hsame) text' htext'
      · rw [hexpect] at hnone
        cases hnone
      · cases htext'
        rw [hexpect] at hsame
        rw [hparse, Option.some.inj hsame]
    · intro hall
      have hsame := hparse.symm.trans (hall text rfl)
      rw [hexpect, Except.ok.inj hsame]
      exact .inr rfl

end Program

/-- **Nothing but the seed, the nonces and the commitments matters.** Two sweeps with the bundled engine
    that have these in common report the fingerprint of the reference and as many hashes. So the program
    exits with status 0 if and only if no fingerprint is expected or the text that is given for it reads
    as the one of the reference, whatever else the command line says. -/
theorem fingerprint_independent_of_options (p : Engine.Primitives) :
    (∀ (template : Template) (e e' : Environment p) (plan plan' : Plan),
      plan.check = .ok () → plan'.check = .ok () → e.Fits plan → e'.Fits plan' →
      plan.seed = plan'.seed → plan.nonces = plan'.nonces →
      plan.strategy.commits = plan'.strategy.commits →
      ∃ report report',
        (Sweep.run (.bundled p e.build) e.host e.schedule plan template).result =
          .ok (.ok report) ∧
        (Sweep.run (.bundled p e'.build) e'.host e'.schedule plan' template).result =
          .ok (.ok report') ∧
        report.fingerprint = report'.fingerprint ∧ report.hashes = report'.hashes ∧
        report.fingerprint =
          referenceFingerprint p template plan.seed plan.nonces plan.strategy.commits) ∧
    (∀ (e : Environment p) (arguments : List String) (invocation : CommandLine.Invocation)
      (plan : Plan), Program.prologue e.host arguments = .ok (invocation, plan) → e.Fits plan →
      ((Program.run (.bundled p e.build) e.host e.schedule arguments).status = some 0 ↔
        ∀ text, CommandLine.textOf .expect arguments = some text → Fingerprint.parse text =
          .ok (referenceFingerprint p .standard plan.seed plan.nonces plan.strategy.commits))) := by
  constructor
  · intro template e e' plan plan' hcheck hcheck' hfits hfits' hseed hnonces hcommits
    obtain ⟨report, hrun, hfingerprint, hhashes⟩ :=
      Environment.report_of_plan hcheck hfits template
    obtain ⟨report', hrun', hfingerprint', hhashes'⟩ :=
      Environment.report_of_plan hcheck' hfits' template
    refine ⟨report, report', hrun, hrun', ?_, ?_, hfingerprint⟩
    · rw [hfingerprint, hfingerprint', hseed, hnonces, hcommits]
    · rw [hhashes, hhashes', hnonces]
  · intro e arguments invocation plan hprologue hfits
    exact Program.status_run_arguments e hprologue hfits

/-- One worker after the other, on a plain host. -/
def Environment.inTurn : Environment .standard :=
  ⟨.sequential, Engine.Build.writesAll_sequential, Sweep.plainHost, Pool.inTurn, Pool.inTurn_isComplete⟩

/-- The same, with a dataset whose last item is written first. -/
def Environment.backwards : Environment .standard :=
  let seeding := Engine.Seeding.backwards ByteArray.empty 8
  ⟨seeding.build, seeding.writesAll, Sweep.plainHost, Pool.inTurn, Pool.inTurn_isComplete⟩

/-- Five nonces for one worker, who asks the engine for one hash after the other on a full store. -/
def fullPlan : Plan :=
  { Plan.standard with
    options := { Engine.Options.standard with profile := .full }
    nonces := 5
    strategy := ⟨false, false⟩ }

/-- Three workers on a light store and one on a full store come to the same fingerprint, and the program
    succeeds if nothing is asked of it. -/
theorem fingerprint_of_small_and_full_plan :
    (∃ report report',
      (Sweep.run (.bundled .standard .sequential) Sweep.plainHost Pool.inTurn Sweep.smallPlan
        .standard).result = .ok (.ok report) ∧
      (Sweep.run (.bundled .standard Environment.backwards.build) Sweep.plainHost Pool.inTurn fullPlan
        .standard).result = .ok (.ok report') ∧
      report.fingerprint = report'.fingerprint) ∧
    (Program.run (.bundled .standard .sequential) Sweep.plainHost Pool.inTurn []).status = some 0 := by
  obtain ⟨hsweeps, hprogram⟩ := fingerprint_independent_of_options .standard
  constructor
  · obtain ⟨report, report', hrun, hrun', hsame, -⟩ :=
      hsweeps .standard .inTurn .backwards Sweep.smallPlan fullPlan rfl rfl
        ⟨by decide, rfl⟩ ⟨by decide, rfl⟩ rfl rfl rfl
    exact ⟨report, report', hrun, hrun', hsame⟩
  · apply (hprogram .inTurn [] .standard .standard rfl ⟨by decide, rfl⟩).mpr
    intro text habsurd
    cases habsurd

end NonceSweep
