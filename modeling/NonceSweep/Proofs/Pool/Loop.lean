import NonceSweep.Proofs.Pool.Books
import NonceSweep.Proofs.Engine.Bundled
import Mathlib.Data.List.TakeWhile

/-!
# The loop of a worker on a stream of numbers

What a worker does in its loop depends only on the numbers that it is given, whoever takes the numbers in
between. `Worker.loop` runs the loop on any stream of numbers; they may come in any order, and more than
once.

A worker that hashes one by one and one that hashes in a batch go through a stream alike: they take the
same numbers and put the same inputs through, each with its own hash. The calls that they make differ.

## Main results

- `Worker.loop`: the loop on a stream
- `Worker.loop_single`, `Worker.loop_batched`: what either kind of worker does
-/

namespace NonceSweep

variable {b : Backend}

/-! ## Going through a stream -/

/-- What is left when a worker has gone through its loop. -/
structure Passage (b : Backend) where
  actions : List Action
  worker : Worker b
  /-- The numbers that were not taken. -/
  rest : List UInt64

/-- A passage with one action before all others. -/
def Passage.after (a : Action) (r : Passage b) : Passage b := { r with actions := a :: r.actions }

namespace Worker

/-- Lets a worker go through its loop, where each number that it claims is the next of a stream. Behind
    the end of a stream no number is below the bound. -/
def loop (w : Worker b) (stream : List UInt64) : Passage b :=
  if w.point = .leaving then ⟨[], w, stream⟩
  else
    match h : w.step (stream.headD w.bound) with
    | none => ⟨[], w, stream⟩
    | some (a, w') =>
      have : w'.point.work (if a.claimed?.isSome then stream.tail else stream).length <
          w.point.work stream.length := by
        apply work_lt_of_step h
        · intro hquiet
          split
          · simp
          · exact Nat.le_refl _
        · rintro rfl hbelow
          cases stream with
          | nil => exact absurd hbelow (UInt64.lt_irrefl _)
          | cons next rest => exact Nat.lt_succ_self _
      (w'.loop (if a.claimed?.isSome then stream.tail else stream)).after a
termination_by w.point.work stream.length

/-! ## Single steps of the loop -/

variable {w w' : Worker b} {stream rest : List UInt64} {a : Action}

theorem loop_of_leaving (hpoint : w.point = .leaving) : w.loop stream = ⟨[], w, stream⟩ := by
  rw [loop, if_pos hpoint]

theorem loop_of_step (hpoint : w.point ≠ .leaving)
    (hstep : w.step (stream.headD w.bound) = some (a, w')) :
    w.loop stream = (w'.loop (if a.claimed?.isSome then stream.tail else stream)).after a := by
  rw [loop, if_neg hpoint]
  grind

/-- A step that takes no number leaves the stream as it is. -/
theorem loop_of_quiet_step (hpoint : w.point ≠ .leaving) (hquiet : a.claimed? = none)
    (hstep : w.step (stream.headD w.bound) = some (a, w')) :
    w.loop stream = (w'.loop stream).after a := by
  rw [loop_of_step hpoint hstep, hquiet]
  rfl

theorem loop_claim_below {primed : Bool} {next : UInt64} (hpoint : w.point = .claiming primed)
    (hbelow : next < w.bound) :
    w.loop (next :: rest) =
      (({ w with point := .submitting next primed } : Worker b).loop rest).after (.claim next) := by
  apply loop_of_step
  · rw [hpoint]
    exact Point.noConfusion
  · simp only [step, hpoint, List.headD_cons, hbelow, if_true]

theorem loop_claim_beyond {primed : Bool} {next : UInt64} (hpoint : w.point = .claiming primed)
    (hbeyond : ¬ next < w.bound) :
    w.loop (next :: rest) =
      (({ w with point := if primed then .draining else .leaving } : Worker b).loop rest).after
        (.claim next) := by
  apply loop_of_step
  · rw [hpoint]
    exact Point.noConfusion
  · simp only [step, hpoint, List.headD_cons, hbeyond, if_false]

theorem loop_submit {value : UInt64} {primed : Bool} (hpoint : w.point = .submitting value primed) :
    w.loop stream = ((w.submit value primed).2.loop stream).after (w.submit value primed).1 := by
  obtain ⟨made, hmade⟩ := w.exists_call_submit value primed
  apply loop_of_quiet_step
  · rw [hpoint]
    exact Point.noConfusion
  · rw [hmade]
    rfl
  · simp only [step, hpoint]

theorem loop_drain (hpoint : w.point = .draining) :
    w.loop stream = (w.drain.2.loop stream).after (.call .drain) := by
  apply loop_of_quiet_step _ rfl
  · simp only [step, hpoint]
    rfl
  · rw [hpoint]
    exact Point.noConfusion

/-- A hash is finished and merged, whatever it comes to, if that does not break off. -/
theorem loop_finish (hreturns : ∀ x digest, b.commitment x digest ≠ .panicked) {hash : Digest}
    {last : Bool} (hpoint : w.point = .finishing hash last) :
    ∃ update, w.loop stream =
      (((w.merge update last).2.loop stream).after (.merge update)).after
        (.finish w.current.bytes hash) := by
  have hanswer : ∃ merged, (if w.strategy.commits then b.commitment w.current.bytes hash
      else .done hash) = .done merged := by
    split
    · cases hcommitment : b.commitment w.current.bytes hash with
      | done merged => exact ⟨merged, rfl⟩
      | panicked => exact absurd hcommitment (hreturns _ _)
    · exact ⟨hash, rfl⟩
  obtain ⟨merged, hmerged⟩ := hanswer
  refine ⟨.ofHash merged, ?_⟩
  have hfinish : w.loop stream = (({ w with point := .merging (.ofHash merged) last } :
      Worker b).loop stream).after (.finish w.current.bytes hash) := by
    apply loop_of_quiet_step _ rfl
    · simp only [step, hpoint, finish, hmerged]
      rfl
    · rw [hpoint]
      exact Point.noConfusion
  rw [hfinish]
  apply congrArg
  apply loop_of_quiet_step Point.noConfusion rfl
  rfl

end Worker

/-! ## The loop in a run of a pool -/

/-- A worker that does not claim does not look at the dispenser. -/
theorem Worker.step_eq_of_quiet {w w' : Worker b} {next : UInt64} {a : Action}
    (hstep : w.step next = some (a, w')) (hquiet : a.claimed? = none) (other : UInt64) :
    w.step other = some (a, w') := by
  unfold step at hstep ⊢
  cases hpoint : w.point with
  | claiming primed =>
    rw [hpoint] at hstep
    cases hstep
    cases hquiet
  | binding | submitting | draining | finishing | merging | leaving | releasing | ended | failed =>
    rw [hpoint] at hstep
    exact hstep

/-- **A worker of a pool goes through its loop**, on the numbers that it takes: as far as both go, what it
    does in a run is what it does in its loop, however the other workers come in between. -/
theorem Pool.Steps.prefix_loop {p q : Pool b} {actions : List (Nat × Action)} (hsteps : Steps p actions q)
    {i : Nat} {w : Worker b} (hw : p.workers[i]? = some w) (rest : List UInt64) :
    own i actions <+: (w.loop (claims (own i actions) ++ rest)).actions ∨
      (w.loop (claims (own i actions) ++ rest)).actions <+: own i actions := by
  -- by induction on the run; the worker is as it was when another makes a step
  induction hsteps generalizing w with
  | refl => exact .inl List.nil_prefix
  | @head p q r j a later hstep _ ih =>
    obtain ⟨u, u', hu, hworker, rfl⟩ := Pool.step_eq_some hstep
    rw [own_cons]
    by_cases hj : j = i
    · subst hj
      obtain rfl : u = w := Option.some.inj (hu.symm.trans hw)
      have hnext := ih (List.getElem?_set_self (List.getElem?_eq_some_iff.mp hw).1)
      by_cases hpoint : u.point = .leaving
      · right
        rw [Worker.loop_of_leaving hpoint]
        exact List.nil_prefix
      · -- the step is the first of the loop, and takes the first number if it takes one
        have hloop : u.loop (claims ([a] ++ own j later) ++ rest) =
            (u'.loop (claims (own j later) ++ rest)).after a := by
          cases hclaimed : a.claimed? with
          | none =>
            have hquiet := Worker.step_eq_of_quiet hworker hclaimed
            rw [show claims ([a] ++ own j later) = claims (own j later) by simp [claims, hclaimed]]
            exact Worker.loop_of_quiet_step hpoint hclaimed (hquiet _)
          | some value =>
            rw [Worker.claimed_eq_next hworker hclaimed] at hclaimed
            have hclaims : claims ([a] ++ own j later) ++ rest =
                p.ledger.dispenser.next :: (claims (own j later) ++ rest) := by
              simp [claims, hclaimed]
            have hfirst : u.loop (p.ledger.dispenser.next :: (claims (own j later) ++ rest)) = _ :=
              Worker.loop_of_step hpoint hworker
            rw [hclaims, hfirst, hclaimed]
            rfl
        rw [if_pos rfl, hloop]
        exact hnext.imp (fun h => List.cons_prefix_cons.mpr ⟨rfl, h⟩)
          fun h => List.cons_prefix_cons.mpr ⟨rfl, h⟩
    · rw [if_neg hj, List.nil_append]
      exact ih ((List.getElem?_set_ne hj).trans hw)

/-! ## Workers at their loop -/

/-- What a finished number comes to: its input and the hash of it. -/
def Task.hashed (task : Task b) (value : UInt64) : ByteArray × Digest :=
  (task.input value, task.hashOf (task.input value))

/-- A worker is about to begin its loop, or has nothing handed in when it comes back. What its hasher holds
    back is left open. -/
structure Worker.Ready (task : Task b) (w : Worker b) : Prop where
  point : w.point = .claiming false
  current : ∃ n, w.current = task.template.candidate n
  spare : ∃ n, w.spare = task.template.candidate n
  hasher : ∃ slot, task.Holds w.hasher slot

/-- A worker comes back to its loop with a number handed in: `current` still has the input that its hasher
    holds back. -/
structure Worker.Primed (task : Task b) (w : Worker b) (value : UInt64) : Prop where
  point : w.point = .claiming true
  batched : w.strategy.batched = true
  current : w.current = task.template.candidate value.toUInt32
  spare : ∃ n, w.spare = task.template.candidate n
  hasher : task.Holds w.hasher (some (task.input value))

/-! ## Passages -/

namespace Passage

/-- A passage through a stream that begins with numbers `below` the bound and a `last` one that is not. It
    takes these and leaves the rest, and finishes a number that was handed in before and those below. -/
structure Serves (task : Task b) (handed : List UInt64) (below : List UInt64) (last : UInt64)
    (rest : List UInt64) (r : Passage b) : Prop where
  point_eq : r.worker.point = .leaving
  claims_eq : claims r.actions = below ++ [last]
  rest_eq : r.rest = rest
  finishes_eq : finishes r.actions = (handed ++ below).map task.hashed

end Passage

/-- The calls that put inputs through in a batch: none at all for no input, and else a first, any number of
    next ones, and a last. -/
def batch : List ByteArray → List Call
  | [] => []
  | first :: rest => .prime first :: (rest.map .advance ++ [.drain])

namespace Worker

variable {task : Task b} {w : Worker b} {last : UInt64}

section Loop

variable (hpipelined : task.Pipelined) (hreturns : ∀ x digest, b.commitment x digest ≠ .panicked)

include hpipelined hreturns

/-- One turn of a worker that hashes one by one. -/
theorem loop_turn_single (hsingle : ¬ w.strategy.batched = true) (hready : w.Ready task) {next : UInt64}
    (hbelow : next < w.bound) (rest : List UInt64) :
    ∃ (w' : Worker b) (update : Fingerprint), w'.bound = w.bound ∧ w'.strategy = w.strategy ∧
      w'.Ready task ∧ w.loop (next :: rest) =
        ((((w'.loop rest).after (.merge update)).after
          (.finish (task.input next) (task.hashOf (task.input next)))).after
            (.call (.hash (task.input next)))).after (.claim next) := by
  obtain ⟨slot, hholds⟩ := hready.hasher
  obtain ⟨hanswer, hnext⟩ := hpipelined.hash hholds (task.input next)
  let submitted : Worker b := { w with
    hasher := (b.hash w.hasher (task.input next)).2
    current := task.template.candidate next.toUInt32
    point := .finishing (task.hashOf (task.input next)) false }
  have hsubmit : w.loop (next :: rest) =
      ((submitted.loop rest).after (.call (.hash (task.input next)))).after (.claim next) := by
    have hpatch := task.template.patch_of_candidate hready.current next.toUInt32
    have hcall : ({ w with point := .submitting next false } : Worker b).submit next false = _ :=
      submit_hash hsingle hpatch
    rw [task.bytes_candidate, hanswer] at hcall
    rw [loop_claim_below hready.point hbelow, loop_submit rfl, hcall]
    rfl
  obtain ⟨update, hfinish⟩ : ∃ update, submitted.loop rest = _ := loop_finish hreturns rfl
  rw [merge_single (w := submitted) hsingle] at hfinish
  refine ⟨{ submitted with hashes := submitted.hashes + 1, point := .claiming false }, update,
    rfl, rfl, ⟨rfl, ⟨_, rfl⟩, hready.spare, hnext⟩, ?_⟩
  rw [hsubmit, hfinish]
  rfl

/-- **The loop of a worker that hashes one by one.** -/
theorem loop_single (hsingle : ¬ w.strategy.batched = true) (hready : w.Ready task)
    {below : List UInt64} (hbelow : ∀ v ∈ below, v < w.bound) (hlast : ¬ last < w.bound)
    (rest : List UInt64) :
    (w.loop (below ++ last :: rest)).Serves task [] below last rest ∧
      calls (w.loop (below ++ last :: rest)).actions = below.map fun v => .hash (task.input v) := by
  -- by induction on the numbers below the bound, one turn for each
  induction below generalizing w with
  | nil =>
    rw [List.nil_append, loop_claim_beyond hready.point hlast, loop_of_leaving rfl]
    exact ⟨⟨rfl, rfl, rfl, rfl⟩, rfl⟩
  | cons next below ih =>
    obtain ⟨hnext, hbelow⟩ := List.forall_mem_cons.mp hbelow
    obtain ⟨w', update, hbound, hstrategy, hready', hturn⟩ :=
      loop_turn_single hpipelined hreturns hsingle hready hnext (below ++ last :: rest)
    rw [← hbound] at hbelow hlast
    rw [← hstrategy] at hsingle
    obtain ⟨hserves, hcalls⟩ := ih hsingle hready' hbelow hlast
    rw [List.cons_append, hturn]
    refine ⟨⟨hserves.point_eq, ?_, hserves.rest_eq, ?_⟩, ?_⟩
    · exact congrArg (next :: ·) hserves.claims_eq
    · exact congrArg (task.hashed next :: ·) hserves.finishes_eq
    · exact congrArg (Call.hash (task.input next) :: ·) hcalls

/-- One turn of a worker that hashes in a batch: the hash is that of the number before. -/
theorem loop_turn_batched {value next : UInt64} (hprimed : w.Primed task value)
    (hbelow : next < w.bound) (rest : List UInt64) :
    ∃ (w' : Worker b) (update : Fingerprint), w'.bound = w.bound ∧ w'.Primed task next ∧
      w.loop (next :: rest) =
        ((((w'.loop rest).after (.merge update)).after
          (.finish (task.input value) (task.hashOf (task.input value)))).after
            (.call (.advance (task.input next)))).after (.claim next) := by
  obtain ⟨hanswer, hnext⟩ := hpipelined.advance hprimed.hasher (task.input next)
  let submitted : Worker b := { w with
    hasher := (b.advance w.hasher (task.input next)).2
    spare := task.template.candidate next.toUInt32
    point := .finishing (task.hashOf (task.input value)) false }
  have hsubmit : w.loop (next :: rest) =
      ((submitted.loop rest).after (.call (.advance (task.input next)))).after (.claim next) := by
    have hpatch := task.template.patch_of_candidate hprimed.spare next.toUInt32
    have hcall : ({ w with point := .submitting next true } : Worker b).submit next true = _ :=
      submit_advance hprimed.batched hpatch
    rw [task.bytes_candidate, hanswer] at hcall
    rw [loop_claim_below hprimed.point hbelow, loop_submit rfl, hcall]
    rfl
  have hcurrent : submitted.current.bytes = task.input value := by
    rw [← task.bytes_candidate, ← hprimed.current]
  obtain ⟨update, hfinish⟩ : ∃ update, submitted.loop rest = _ := loop_finish hreturns rfl
  rw [merge_batched (w := submitted) hprimed.batched, hcurrent] at hfinish
  -- the candidates have changed places: the number just handed in is in `current`
  refine ⟨{ submitted with
    current := submitted.spare
    spare := submitted.current
    hashes := submitted.hashes + 1
    point := .claiming true }, update, rfl,
    ⟨rfl, hprimed.batched, rfl, ⟨_, hprimed.current⟩, hnext⟩, ?_⟩
  rw [hsubmit, hfinish]

/-- The end of a batch: the hash of the number that was handed in last. -/
theorem loop_drained {value : UInt64} (hprimed : w.Primed task value) (hlast : ¬ last < w.bound)
    (rest : List UInt64) :
    ∃ (w' : Worker b) (update : Fingerprint), w'.point = .leaving ∧
      w.loop (last :: rest) =
        ((((⟨[], w', rest⟩ : Passage b).after (.merge update)).after
          (.finish (task.input value) (task.hashOf (task.input value)))).after
            (.call .drain)).after (.claim last) := by
  have hanswer := hpipelined.drain hprimed.hasher
  let drained : Worker b := { w with
    hasher := (b.drain w.hasher).2
    point := .finishing (task.hashOf (task.input value)) true }
  have hdrain : w.loop (last :: rest) =
      ((drained.loop rest).after (.call .drain)).after (.claim last) := by
    rw [loop_claim_beyond hprimed.point hlast, loop_drain rfl]
    simp only [drain, hanswer]
    rfl
  have hcurrent : drained.current.bytes = task.input value := by
    rw [← task.bytes_candidate, ← hprimed.current]
  obtain ⟨update, hfinish⟩ : ∃ update, drained.loop rest = _ := loop_finish hreturns rfl
  refine ⟨(drained.merge update true).2, update, rfl, ?_⟩
  rw [loop_of_leaving (w := (drained.merge update true).2) rfl, hcurrent] at hfinish
  rw [hdrain, hfinish]

/-- The rest of a batch, when a number has been handed in. -/
theorem loop_primed {value : UInt64} (hprimed : w.Primed task value) {below : List UInt64}
    (hbelow : ∀ v ∈ below, v < w.bound) (hlast : ¬ last < w.bound) (rest : List UInt64) :
    (w.loop (below ++ last :: rest)).Serves task [value] below last rest ∧
      calls (w.loop (below ++ last :: rest)).actions =
        (below.map fun v => .advance (task.input v)) ++ [.drain] := by
  -- by induction on the numbers below the bound: each takes the place of the one handed in before it
  induction below generalizing w value with
  | nil =>
    obtain ⟨w', update, hover, hdrained⟩ := loop_drained hpipelined hreturns hprimed hlast rest
    rw [List.nil_append, hdrained]
    exact ⟨⟨hover, rfl, rfl, rfl⟩, rfl⟩
  | cons next below ih =>
    obtain ⟨hnext, hbelow⟩ := List.forall_mem_cons.mp hbelow
    obtain ⟨w', update, hbound, hprimed', hturn⟩ :=
      loop_turn_batched hpipelined hreturns hprimed hnext (below ++ last :: rest)
    rw [← hbound] at hbelow hlast
    obtain ⟨hserves, hcalls⟩ := ih hprimed' hbelow hlast
    rw [List.cons_append, hturn]
    refine ⟨⟨hserves.point_eq, ?_, hserves.rest_eq, ?_⟩, ?_⟩
    · exact congrArg (next :: ·) hserves.claims_eq
    · exact congrArg (task.hashed value :: ·) hserves.finishes_eq
    · exact congrArg (Call.advance (task.input next) :: ·) hcalls

/-- **The loop of a worker that hashes in a batch.** -/
theorem loop_batched (hbatched : w.strategy.batched = true) (hready : w.Ready task)
    {below : List UInt64} (hbelow : ∀ v ∈ below, v < w.bound) (hlast : ¬ last < w.bound)
    (rest : List UInt64) :
    (w.loop (below ++ last :: rest)).Serves task [] below last rest ∧
      calls (w.loop (below ++ last :: rest)).actions = batch (below.map task.input) := by
  cases below with
  | nil =>
    rw [List.nil_append, loop_claim_beyond hready.point hlast, loop_of_leaving rfl]
    exact ⟨⟨rfl, rfl, rfl, rfl⟩, rfl⟩
  | cons first below =>
    obtain ⟨hfirst, hbelow⟩ := List.forall_mem_cons.mp hbelow
    obtain ⟨slot, hholds⟩ := hready.hasher
    -- the first number drops whatever the hasher held back before
    obtain ⟨hanswer, hnext⟩ := hpipelined.prime hholds (task.input first)
    let primed : Worker b := { w with
      hasher := (b.prime w.hasher (task.input first)).2
      current := task.template.candidate first.toUInt32
      point := .claiming true }
    have hprime : w.loop (first :: (below ++ last :: rest)) =
        ((primed.loop (below ++ last :: rest)).after (.call (.prime (task.input first)))).after
          (.claim first) := by
      have hpatch := task.template.patch_of_candidate hready.current first.toUInt32
      have hcall : ({ w with point := .submitting first false } : Worker b).submit first false = _ :=
        submit_prime hbatched hpatch
      rw [task.bytes_candidate, hanswer] at hcall
      rw [loop_claim_below hready.point hfirst, loop_submit rfl, hcall]
      rfl
    have hprimed : primed.Primed task first := ⟨rfl, hbatched, rfl, hready.spare, hnext⟩
    obtain ⟨hserves, hcalls⟩ := loop_primed hpipelined hreturns hprimed hbelow hlast rest
    rw [← Function.comp_def, ← List.map_map] at hcalls
    rw [List.cons_append, hprime]
    refine ⟨⟨hserves.point_eq, ?_, hserves.rest_eq, ?_⟩, ?_⟩
    · exact congrArg (first :: ·) hserves.claims_eq
    · exact hserves.finishes_eq
    · exact congrArg (Call.prime (task.input first) :: ·) hcalls

end Loop

end Worker

/-! ## The order of calls -/

/-- As long as no input is taken away, something is held back. -/
theorem isSome_foldl_held {made : List Call} (hmade : ∀ c ∈ made, c ≠ .drain) {slot : Option ByteArray}
    (hslot : slot.isSome) : (made.foldl Call.held slot).isSome := by
  induction made generalizing slot with
  | nil => exact hslot
  | cons c made ih =>
    obtain ⟨hc, hmade⟩ := List.forall_mem_cons.mp hmade
    apply ih hmade
    cases c with
    | hash _ => exact hslot
    | prime _ | advance _ => rfl
    | drain => exact absurd rfl hc

/-- In a batch no hasher is asked for the hash of what it holds back when there is no such thing. -/
theorem isSome_held_of_batch {inputs : List ByteArray} {before later : List Call} {made : Call}
    (hbatch : batch inputs = before ++ made :: later) (hmade : ∀ x, made ≠ .prime x) :
    (held before).isSome := by
  cases inputs with
  | nil => exact absurd hbatch (by simp [batch])
  | cons first rest =>
    cases before with
    | nil => exact absurd (List.cons.inj hbatch).1.symm (hmade first)
    | cons c before =>
      obtain ⟨rfl, hrest⟩ := List.cons.inj hbatch
      -- what comes before is a beginning of the calls up to the last
      have hbefore : before <+: rest.map .advance ++ [.drain] := ⟨made :: later, hrest.symm⟩
      rcases List.prefix_concat_iff.mp hbefore with hall | hbefore
      · rw [hall] at hrest
        exact absurd hrest (by simp)
      · have hquiet : ∀ c ∈ before, c ≠ .drain := by
          intro c hc
          obtain ⟨x, -, rfl⟩ := List.mem_map.mp (hbefore.subset hc)
          exact Call.noConfusion
        have hfirst : (Call.held none (.prime first)).isSome := rfl
        exact isSome_foldl_held hquiet hfirst

/-! ## Streams -/

theorem exists_takeWhile_append {bound : UInt64} {stream : List UInt64}
    (hstop : ∃ v ∈ stream, bound ≤ v) :
    ∃ last rest, stream = stream.takeWhile (· < bound) ++ last :: rest ∧ bound ≤ last := by
  cases hdrop : stream.dropWhile (· < bound) with
  | nil =>
    obtain ⟨v, hv, hle⟩ := hstop
    have hall := List.dropWhile_eq_nil_iff.mp hdrop v hv
    exact absurd (of_decide_eq_true hall) (UInt64.not_lt.mpr hle)
  | cons last rest =>
    refine ⟨last, rest, ?_, ?_⟩
    · rw [← hdrop, List.takeWhile_append_dropWhile]
    · have hhead := List.head_dropWhile_not (· < bound) (l := stream) (by rw [hdrop]; simp)
      simp only [hdrop, List.head_cons] at hhead
      exact UInt64.not_lt.mp (of_decide_eq_false hhead)

/-- **Hashing in a batch makes no difference to what goes through.** -/
theorem batched_passage_eq_single {task : Task b} (hpipelined : task.Pipelined)
    (hreturns : ∀ x digest, b.commitment x digest ≠ .panicked) {single batched : Worker b}
    (hsingle : single.strategy.batched = false) (hbatched : batched.strategy.batched = true)
    (hready : single.Ready task) (hready' : batched.Ready task) (hbound : batched.bound = single.bound)
    {stream : List UInt64} (hstop : ∃ v ∈ stream, single.bound ≤ v) :
    let below := stream.takeWhile (· < single.bound)
    ∃ last rest, stream = below ++ last :: rest ∧ single.bound ≤ last ∧
      (single.loop stream).Serves task [] below last rest ∧
      (batched.loop stream).Serves task [] below last rest ∧
      calls (single.loop stream).actions = (below.map fun v => .hash (task.input v)) ∧
      calls (batched.loop stream).actions = batch (below.map task.input) ∧
      ∀ before made later, calls (batched.loop stream).actions = before ++ made :: later →
        (∀ x, made ≠ .prime x) → (held before).isSome := by
  intro below
  obtain ⟨last, rest, hstream, hle⟩ := exists_takeWhile_append hstop
  have hwhole : below ++ last :: rest = stream := hstream.symm
  have hlast : ¬ last < single.bound := UInt64.not_lt.mpr hle
  have hbelow : ∀ v ∈ below, v < single.bound :=
    fun v hv => of_decide_eq_true (List.mem_takeWhile_imp (p := (· < single.bound)) hv)
  have hfirst := Worker.loop_single hpipelined hreturns (Bool.eq_false_iff.mp hsingle) hready
    hbelow hlast rest
  rw [← hbound] at hlast hbelow
  have hsecond := Worker.loop_batched hpipelined hreturns hbatched hready' hbelow hlast rest
  rw [hwhole] at hfirst hsecond
  refine ⟨last, rest, hstream, hle, hfirst.1, hsecond.1, hfirst.2, hsecond.2, ?_⟩
  intro before made later hcalls hmade
  exact isSome_held_of_batch (hsecond.2.symm.trans hcalls) hmade

/-- A worker of the bundled engine about to begin its loop up to 5, with something left over in its
    hasher. -/
def leftoverWorker (batched : Bool) : Worker (.bundled .standard .sequential) :=
  .new 0 ⟨batched, true⟩ 5
    ((Engine.Machine.new (.allocate .standard)).prime .standard Template.standardBytes) .standard
    (.claiming false)

/-- Numbers in no order, one of them twice: those up to 7 are taken, and 2 is not. -/
theorem passages_up_to_five :
    ((leftoverWorker true).loop [3, 1, 1, 7, 2]).rest = [2] ∧
      claims ((leftoverWorker true).loop [3, 1, 1, 7, 2]).actions = [3, 1, 1, 7] ∧
      finishes ((leftoverWorker true).loop [3, 1, 1, 7, 2]).actions =
        finishes ((leftoverWorker false).loop [3, 1, 1, 7, 2]).actions := by
  have hready (batched : Bool) : (leftoverWorker batched).Ready
      (Backend.bundledTask .standard .sequential (.allocate .standard) .standard) :=
    ⟨rfl, ⟨0, rfl⟩, ⟨0, rfl⟩, _, (Engine.Machine.Shows.new _).prime _⟩
  have hstop : ∃ v ∈ ([3, 1, 1, 7, 2] : List UInt64), (leftoverWorker false).bound ≤ v :=
    ⟨7, by decide, by decide⟩
  have htake : ([3, 1, 1, 7, 2] : List UInt64).takeWhile (· < (leftoverWorker false).bound) =
      [3, 1, 1] := by decide
  obtain ⟨last, rest, hstream, -, hsingle, hbatched, -⟩ := batched_passage_eq_single
    (Backend.bundled_pipelined .standard .sequential (.allocate .standard) .standard)
    (fun _ _ => nofun) (by rfl) (by rfl) (hready false) (hready true) rfl hstop
  rw [htake] at hstream hsingle hbatched
  obtain ⟨rfl, rfl⟩ : 7 = last ∧ [2] = rest := by simpa using hstream
  exact ⟨hbatched.rest_eq, hbatched.claims_eq, hbatched.finishes_eq.trans hsingle.finishes_eq.symm⟩

end NonceSweep
