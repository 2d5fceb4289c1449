import NonceSweep.Pool.Ledger
import NonceSweep.Pool.Point
import NonceSweep.Work.Candidate

/-!
# Workers

A worker claims numbers from the dispenser until one reaches its bound. It hashes the candidate of every
number below the bound and merges what comes of it.

A worker is a machine that makes one step at a time; between any two of its steps other workers may make
steps of theirs. Of what is shared it reads only the number that the dispenser would hand out next.

In a batch the hash of a candidate comes with the next call, so a worker has two candidates: `current` is
the one whose hash is due, `spare` takes the next number, and the two change places.

## Contents

- `Worker.step`: one step
- `Worker.Move`: the kinds of steps
- `Worker.work_step`: every step leaves less work
- `Worker.run`: all steps of one worker, with no other worker in between
-/

namespace NonceSweep

structure Worker (b : Backend) where
  index : Nat
  strategy : Strategy
  /-- The numbers below this are hashed. -/
  bound : UInt64
  hasher : b.Hasher
  current : Candidate
  spare : Candidate
  hashes : UInt64
  point : Point

namespace Worker

variable {b : Backend}

def new (index : Nat) (strategy : Strategy) (bound : UInt64) (hasher : b.Hasher) (template : Template)
    (point : Point) : Worker b :=
  { index, strategy, bound, hasher, current := template.candidate 0, spare := template.candidate 0
    hashes := 0, point }

/-- Has a number in hand: writes it into a candidate and hands that in. -/
def submit (w : Worker b) (value : UInt64) (primed : Bool) : Action × Worker b :=
  if w.strategy.batched then
    if primed then
      let spare := w.spare.patch value.toUInt32
      let (answer, hasher) := b.advance w.hasher spare.bytes
      (.call (.advance spare.bytes),
        { w with hasher, spare, point := .after answer fun hash => .finishing hash false })
    else
      let current := w.current.patch value.toUInt32
      let (answer, hasher) := b.prime w.hasher current.bytes
      (.call (.prime current.bytes),
        { w with hasher, current, point := .after answer fun _ => .claiming true })
  else
    let current := w.current.patch value.toUInt32
    let (answer, hasher) := b.hash w.hasher current.bytes
    (.call (.hash current.bytes),
      { w with hasher, current, point := .after answer fun hash => .finishing hash false })

def drain (w : Worker b) : Action × Worker b :=
  let (answer, hasher) := b.drain w.hasher
  (.call .drain,
    { w with
      hasher
      point := .after answer fun
        | some hash => .finishing hash true
        | none => .leaving })

def finish (w : Worker b) (hash : Digest) (last : Bool) : Action × Worker b :=
  let answer := if w.strategy.commits then b.commitment w.current.bytes hash else .done hash
  (.finish w.current.bytes hash,
    { w with point := .after answer fun merged => .merging (.ofHash merged) last })

/-- Merges. In a batch that goes on, the two candidates change places. -/
def merge (w : Worker b) (update : Fingerprint) (last : Bool) : Action × Worker b :=
  let merged := { w with hashes := w.hashes + 1 }
  (.merge update,
    if last then { merged with point := .leaving }
    else if w.strategy.batched then
      { merged with current := w.spare, spare := w.current, point := .claiming true }
    else { merged with point := .claiming false })

/-- One step, where `next` is the number that the dispenser would hand out. A worker that has ended or
has broken off makes none. -/
def step (w : Worker b) (next : UInt64) : Option (Action × Worker b) :=
  match w.point with
  | .binding processor allowed =>
    let event : Event := if allowed then .pinned w.index processor else .unpinned w.index processor
    some (.log event, { w with point := .claiming false })
  | .claiming primed =>
    let point : Point :=
      if next < w.bound then .submitting next primed else if primed then .draining else .leaving
    some (.claim next, { w with point })
  | .submitting value primed => some (w.submit value primed)
  | .draining => some w.drain
  | .finishing hash last => some (w.finish hash last)
  | .merging update last => some (w.merge update last)
  | .leaving => some (.log (.workerDone w.index w.hashes), { w with point := .releasing })
  | .releasing => some (.release, { w with point := .after (b.release w.hasher) fun _ => .ended })
  | .ended | .failed => none

/-! ## Kinds of steps -/

/-- A worker hands a candidate in by one call. -/
theorem exists_call_submit (w : Worker b) (value : UInt64) (primed : Bool) :
    ∃ made, (w.submit value primed).1 = .call made := by
  unfold submit
  split
  · split
    · exact ⟨_, rfl⟩
    · exact ⟨_, rfl⟩
  · exact ⟨_, rfl⟩

/-- What a step does, by the place where the worker stands. -/
inductive Move (w : Worker b) (next : UInt64) : Action → Worker b → Prop where
  | bind {processor : Nat} {allowed : Bool} (hpoint : w.point = .binding processor allowed) :
    Move w next (.log (if allowed then .pinned w.index processor else .unpinned w.index processor))
      { w with point := .claiming false }
  | claim {primed : Bool} (hpoint : w.point = .claiming primed) :
    Move w next (.claim next)
      { w with
        point := if next < w.bound then .submitting next primed else if primed then .draining else .leaving }
  | submit {value : UInt64} {primed : Bool} {made : Call} (hpoint : w.point = .submitting value primed)
    (hmade : (w.submit value primed).1 = .call made) : Move w next (.call made) (w.submit value primed).2
  | drain (hpoint : w.point = .draining) : Move w next (.call .drain) w.drain.2
  | finish {hash : Digest} {last : Bool} (hpoint : w.point = .finishing hash last) :
    Move w next (.finish w.current.bytes hash) (w.finish hash last).2
  | merge {update : Fingerprint} {last : Bool} (hpoint : w.point = .merging update last) :
    Move w next (.merge update) (w.merge update last).2
  | leave (hpoint : w.point = .leaving) :
    Move w next (.log (.workerDone w.index w.hashes)) { w with point := .releasing }
  | release (hpoint : w.point = .releasing) :
    Move w next .release { w with point := .after (b.release w.hasher) fun _ => .ended }

/-- There are no other steps. -/
theorem move_of_step {w w' : Worker b} {next : UInt64} {a : Action} (h : w.step next = some (a, w')) :
    w.Move next a w' := by
  unfold step at h
  cases hpoint : w.point with
  | binding processor allowed =>
    rw [hpoint] at h
    cases h
    exact .bind hpoint
  | claiming primed =>
    rw [hpoint] at h
    cases h
    exact .claim hpoint
  | submitting value primed =>
    rw [hpoint] at h
    obtain ⟨made, hmade⟩ := w.exists_call_submit value primed
    have hmove : w.Move next _ _ := .submit hpoint hmade
    rw [← hmade, Option.some.inj h] at hmove
    exact hmove
  | draining =>
    rw [hpoint] at h
    cases h
    exact .drain hpoint
  | finishing hash last =>
    rw [hpoint] at h
    cases h
    exact .finish hpoint
  | merging update last =>
    rw [hpoint] at h
    have hmove : w.Move next _ _ := .merge hpoint
    rw [show Action.merge update = (w.merge update last).1 from rfl, Option.some.inj h] at hmove
    exact hmove
  | leaving =>
    rw [hpoint] at h
    cases h
    exact .leave hpoint
  | releasing =>
    rw [hpoint] at h
    cases h
    exact .release hpoint
  | ended | failed =>
    rw [hpoint] at h
    cases h

/-- What a worker is set up with stays as it is. -/
theorem step_frame {w w' : Worker b} {next : UInt64} {a : Action} (h : w.step next = some (a, w')) :
    w'.index = w.index ∧ w'.strategy = w.strategy ∧ w'.bound = w.bound := by
  cases move_of_step h with
  | @submit value primed made hpoint hmade =>
    unfold submit
    split
    · split
      · exact ⟨rfl, rfl, rfl⟩
      · exact ⟨rfl, rfl, rfl⟩
    · exact ⟨rfl, rfl, rfl⟩
  | @merge update last hpoint =>
    unfold merge
    cases last with
    | true => exact ⟨rfl, rfl, rfl⟩
    | false => cases w.strategy.batched <;> exact ⟨rfl, rfl, rfl⟩
  | bind | claim | drain | finish | leave | release => exact ⟨rfl, rfl, rfl⟩

/-! ## A worker on its own -/

/-- No step leads to a worker with as much work ahead of it, wherever the numbers come from. A claim of a
number below the bound leaves fewer of them; after any other claim the worker does not return to its loop. -/
theorem work_lt_of_step {w w' : Worker b} {next : UInt64} {a : Action} {left left' : Nat}
    (h : w.step next = some (a, w')) (hquiet : (∀ v, a ≠ .claim v) → left' ≤ left)
    (hclaim : a = .claim next → next < w.bound → left' < left) :
    w'.point.work left' < w.point.work left := by
  cases move_of_step h with
  | bind hpoint =>
    have hle := hquiet nofun
    simp only [hpoint, Point.work]
    omega
  | @claim primed hpoint =>
    rw [hpoint]
    by_cases inside : next < w.bound
    · have fewer := hclaim rfl inside
      simp only [Point.work, inside, if_true]
      omega
    · cases primed <;> simp [Point.work, inside]
  | @submit value primed made hpoint hmade =>
    have hle := hquiet nofun
    rw [hpoint]
    -- whichever call it is, it leads to a later place in the same turn of the loop
    unfold submit
    split
    · split <;> exact Point.work_after_lt (by simp [Point.work]) fun _ => by simp only [Point.work]; omega
    · exact Point.work_after_lt (by simp [Point.work]) fun _ => by simp only [Point.work]; omega
  | drain hpoint =>
    rw [hpoint]
    exact Point.work_after_lt (by simp [Point.work]) fun answer => by cases answer <;> simp [Point.work]
  | @finish hash last hpoint =>
    have hle := hquiet nofun
    rw [hpoint]
    cases last <;>
      exact Point.work_after_lt (by simp [Point.work]) fun _ => by simp only [Point.work]; omega
  | @merge update last hpoint =>
    have hle := hquiet nofun
    rw [hpoint]
    unfold merge
    cases last with
    | true => simp [Point.work]
    | false => cases w.strategy.batched <;> simp [Point.work] <;> omega
  | leave hpoint =>
    rw [hpoint]
    simp [Point.work]
  | release hpoint =>
    rw [hpoint]
    exact Point.work_after_lt (by simp [Point.work]) fun _ => by simp [Point.work]

/-- Numbers below the bound that the dispenser has not handed out. -/
def left (w : Worker b) (next : UInt64) : Nat := w.bound.toNat - next.toNat

/-- Every step leaves less work: the dispenser has handed out one number more, or is as it was. -/
theorem work_step {w w' : Worker b} {l : Ledger} {a : Action}
    (h : w.step l.dispenser.next = some (a, w')) :
    w'.point.work (w'.left (l.record a).dispenser.next) < w.point.work (w.left l.dispenser.next) := by
  have hbound := (step_frame h).2.2
  apply work_lt_of_step h
  · intro hquiet
    -- the dispenser is as it was
    have hnext : (l.record a).dispenser.next = l.dispenser.next := by
      cases a with
      | claim value => exact absurd rfl (hquiet value)
      | log _ | call _ | finish _ _ | merge _ | release => rfl
    simp only [left, hbound, hnext, Nat.le_refl]
  · rintro rfl inside
    have below : l.dispenser.next.toNat < w.bound.toNat := inside
    have size := w.bound.toNat_lt
    have onward : (l.dispenser.next + 1).toNat = l.dispenser.next.toNat + 1 := by
      rw [UInt64.toNat_add, UInt64.toNat_one]
      omega
    show w'.bound.toNat - (l.dispenser.next + 1).toNat < _
    rw [left, hbound, onward]
    omega

/-- Makes all steps of a worker, with no other worker in between. -/
def run (w : Worker b) (l : Ledger) : Worker b × Ledger :=
  match h : w.step l.dispenser.next with
  | none => (w, l)
  | some (a, w') =>
    have := work_step h
    run w' (l.record a)
termination_by w.point.work (w.left l.dispenser.next)

end Worker

end NonceSweep
