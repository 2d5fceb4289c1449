import NonceSweep.Proofs.Sweep.Outcome
import NonceSweep.Sweep.ProfileCheck

/-!
# What the check of the two profiles finds

With an engine that can be set up under both profiles and whose calls never break off, the check comes to
two hashes of the template with nonce zero. Each is the hash of the engine that was set up for it.

## Main results

- `ProfileCheck.hashUnder_goes`: the hash under one profile
- `ProfileCheck.run_goes`: the whole check
-/

namespace NonceSweep

namespace Plan

/-- The plan with another profile. -/
def withProfile (plan : Plan) (profile : Engine.Profile) : Plan :=
  { plan with options := plan.options.withProfile profile }

end Plan

namespace ProfileCheck

variable {b : Backend} {plan : Plan}

/-- The calls that hash one input under a profile. -/
def hashCalls (plan : Plan) (profile : Engine.Profile) : List SetupCall :=
  [.allocate (plan.options.withProfile profile), .seed plan.engineSeed plan.initThreads.toNat, .hasher 0]

/-- Under each profile the check finds the hash of an engine that is set up for it. -/
theorem hashUnder_goes {task : Task b} (honoured : task.Honoured) (steady : task.Steady false)
    {profile : Engine.Profile} {shared : b.Shared}
    (hprepared : task.Prepared (plan.withProfile profile) shared) (input : ByteArray) :
    (hashUnder b plan input profile).Goes (.ok (.done (task.hashOf input))) [] (hashCalls plan profile) := by
  obtain ⟨raw, hallocate, hseed⟩ := hprepared.setUp
  -- setting up asks for nothing but the options and the seed of the plan
  have hfirst := Session.Goes.allocate b (plan.options.withProfile profile)
  rw [show (b.allocate (plan.options.withProfile profile)).2 = .ok raw from hallocate] at hfirst
  have hsecond := Session.Goes.seed b plan raw
  rw [show (b.seed raw plan.engineSeed plan.initThreads.toNat).2 = shared from hseed] at hsecond
  have hthird := (Session.Goes.hasher b shared 0).bind_pure fun hasher =>
    (b.hash hasher input).1.bind fun digest => (b.release (b.hash hasher input).2).bind fun _ => .done digest
  -- the call, and then the giving up of the hasher
  have hanswer : ((b.hash (b.hasher shared 0) input).1.bind fun digest =>
      (b.release (b.hash (b.hasher shared 0) input).2).bind fun _ => .done digest) =
      .done (task.hashOf input) := by
    have hholds := hprepared.fresh 0
    cases hcall : (b.hash (b.hasher shared 0) input).1 with
    | panicked => exact absurd hcall (steady.hash hholds input)
    | done digest =>
      obtain ⟨rfl, hnext⟩ := honoured.hash hholds hcall
      cases hrelease : b.release (b.hash (b.hasher shared 0) input).2 with
      | panicked => exact absurd hrelease (steady.release hnext)
      | done => rfl
  rw [hanswer] at hthird
  exact hfirst.bind (hsecond.bind hthird)

/-- An engine that cannot be allocated is not seeded. -/
theorem hashUnder_goes_of_error {profile : Engine.Profile} {cause : Engine.AllocationFailure}
    (hallocate : (b.allocate (plan.options.withProfile profile)).2 = .error cause) (input : ByteArray) :
    (hashUnder b plan input profile).Goes (.error (.allocation cause)) []
      [.allocate (plan.options.withProfile profile)] := by
  have hfirst := Session.Goes.allocate b (plan.options.withProfile profile)
  rw [hallocate] at hfirst
  exact hfirst.bind (.fail _)

section Light

variable {light : Task b} (honoured : light.Honoured) (steady : light.Steady false) {small : b.Shared}
  (hsmall : light.Prepared (plan.withProfile .light) small)

include honoured steady hsmall

/-- If the engine cannot be allocated under the full profile, this is found out after a hash under the
    light one. -/
theorem run_goes_of_full_error {cause : Engine.AllocationFailure}
    (hallocate : (b.allocate (plan.options.withProfile .full)).2 = .error cause) (template : Template) :
    (run b plan template).Goes (.error (.allocation cause)) []
      (hashCalls plan .light ++ [.allocate (plan.options.withProfile .full)]) :=
  (hashUnder_goes honoured steady hsmall _).bind ((hashUnder_goes_of_error hallocate _).bind_of_error _)

/-- The check comes to the hash of the template with nonce zero under each profile. -/
theorem run_goes {full : Task b} (honouredFull : full.Honoured) (steadyFull : full.Steady false) {large : b.Shared}
    (hlarge : full.Prepared (plan.withProfile .full) large) (template : Template) :
    (run b plan template).Goes
      (.ok (.done ⟨light.hashOf (template.candidate 0).bytes, full.hashOf (template.candidate 0).bytes⟩)) []
      (hashCalls plan .light ++ hashCalls plan .full) := by
  have hlast : (Session.log [.profilesHashed (light.hashOf (template.candidate 0).bytes)
      (full.hashOf (template.candidate 0).bytes)]).Goes (.ok ()) [] [] := .log _
  exact (hashUnder_goes honoured steady hsmall _).bind
    ((hashUnder_goes honouredFull steadyFull hlarge _).bind (hlast.bind_pure _))

end Light

end ProfileCheck

end NonceSweep
