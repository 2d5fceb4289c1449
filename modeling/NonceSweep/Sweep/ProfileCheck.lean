import NonceSweep.Journal.Session
import NonceSweep.Work.Candidate

/-!
# The check of the two profiles

An engine must hash alike under both profiles. The check sets it up twice from one plan, hashes the
template with nonce zero under each profile, and keeps both hashes.
-/

namespace NonceSweep

/-- The hash of one input under each profile. -/
structure ProfileCheck where
  light : Digest
  full : Digest
deriving DecidableEq, Repr

namespace ProfileCheck

def agrees (c : ProfileCheck) : Bool := c.light == c.full

/-- Hashes an input under a profile, with an engine that is set up for this alone. -/
def hashUnder (b : Backend) (plan : Plan) (input : ByteArray) (profile : Engine.Profile) :
    Session (Attempt Digest) := do
  match ← Session.allocate b (plan.options.withProfile profile) with
  | .error cause => Session.fail (.allocation cause)
  | .ok shared =>
    let shared ← Session.seed b plan shared
    let hasher ← Session.hasher b shared 0
    let (answer, hasher) := b.hash hasher input
    return do
      let digest ← answer
      b.release hasher
      return digest

/-- Hashes a template under both profiles, the light one first. The plan is not checked. -/
def run (b : Backend) (plan : Plan) (template : Template) : Session (Attempt ProfileCheck) := do
  let input := (template.candidate 0).bytes
  match ← hashUnder b plan input .light with
  | .panicked => return .panicked
  | .done light =>
    match ← hashUnder b plan input .full with
    | .panicked => return .panicked
    | .done full =>
      Session.log [.profilesHashed light full]
      return .done ⟨light, full⟩

end ProfileCheck

end NonceSweep
