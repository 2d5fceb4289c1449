import NonceSweep.Engine.Machine
import NonceSweep.Proofs.Engine.Stream
import Mathlib.Logic.Function.Basic

/-!
# Machines with one slot

A machine works on a scratchpad that is never cleared and keeps only the seed of the input that it holds
back. Seen from outside it is much less: a slot that is empty or holds one input, and a function from
inputs to hashes. No answer depends on what the machine, or any other machine on the same store, has
worked on before.

## Contents

- `execute_eq_execute`: work on a seed overwrites all that it reads, and reads a store only item by item
- `Request`, `Machine.answer`, `Slot.answer`: the requests, and the two sides that answer them
- `Machine.Shows`: the simulation relation between a machine and a slot
- `serve_eq_serve`: any number of machines, asked in any order
-/

namespace NonceSweep.Engine

variable (p : Primitives)

/-! ## Work on a seed -/

/-- Two stores with the same items are not told apart in a round. -/
theorem performRound_congr {s s' : Store} (hitem : ∀ index, s.item p index = s'.item p index)
    (round : Nat) (pad : Scratchpad) (state : Digest) :
    performRound p s round pad state = performRound p s' round pad state := by
  have hblock : roundBlock p s round pad state = roundBlock p s' round pad state := by
    unfold roundBlock
    rw [hitem]
  unfold performRound
  rw [hblock]

theorem performRounds_congr {s s' : Store} (hitem : ∀ index, s.item p index = s'.item p index)
    (pad : Scratchpad) (seed : Digest) (count : Nat) :
    performRounds p s pad seed count = performRounds p s' pad seed count := by
  induction count with
  | zero => rfl
  | succ count ih =>
    simp only [performRounds]
    rw [ih, performRound_congr p hitem]

/-- Work on a seed depends on the items of the store and on nothing that the scratchpad held. -/
theorem execute_eq_execute {s s' : Store} (hitem : ∀ index, s.item p index = s'.item p index)
    (pad pad' : Scratchpad) (seed : Digest) : execute p s pad seed = execute p s' pad' seed := by
  -- the whole scratchpad is filled from the seed before the first round reads it
  simp only [execute]
  rw [Keystream.fill_eq_fill p pad pad' seed, performRounds_congr p hitem]

/-- The hash of an input by a machine that has done nothing yet. -/
def freshHash (store : Store) (input : ByteArray) : Digest := ((Machine.new store).hash p input).1

namespace Machine

/-- Work gives a hash and leaves its mark on the scratchpad, and on nothing else. -/
theorem work_spec (m : Machine) (seed : Digest) :
    (m.work p seed).1 = (execute p m.store m.scratchpad seed).1 ∧
      (m.work p seed).2.store = m.store ∧ (m.work p seed).2.held = m.held := by
  obtain ⟨store, scratchpad, held⟩ := m
  -- the result is named first, so that the rounds behind it are never unrolled
  rcases hresult : execute p store scratchpad seed with ⟨hash, scratchpad'⟩
  simp only [work, hresult, and_self]

end Machine

theorem freshHash_eq (store : Store) (input : ByteArray) :
    freshHash p store input =
      (execute p store (Machine.new store).scratchpad (store.seedOf p input)).1 := by
  have hwork : ((Machine.new store).work p (store.seedOf p input)).1 =
      (execute p store (Machine.new store).scratchpad (store.seedOf p input)).1 :=
    (Machine.work_spec p _ _).1
  unfold freshHash Machine.hash
  exact hwork

/-- Stores with the same items and the same seeds for inputs give the same hashes. -/
theorem freshHash_congr {s s' : Store} (hitem : ∀ index, s.item p index = s'.item p index)
    (hseed : ∀ input, s.seedOf p input = s'.seedOf p input) (input : ByteArray) :
    freshHash p s input = freshHash p s' input := by
  rw [freshHash_eq, freshHash_eq, hseed, execute_eq_execute p hitem _ (Machine.new s').scratchpad]

/-- Whatever a machine has worked on before, an input leads to one hash. -/
theorem Machine.work_seedOf (m : Machine) (input : ByteArray) :
    (m.work p (m.store.seedOf p input)).1 = freshHash p m.store input := by
  rw [freshHash_eq, (work_spec p m _).1]
  rw [execute_eq_execute p (fun _ => rfl) m.scratchpad (new m.store).scratchpad]

/-! ## Requests -/

/-- What a machine can be asked for. -/
inductive Request where
  | hash (input : ByteArray)
  | prime (input : ByteArray)
  | advance (input : ByteArray)
  | drain
  /-- Whether an input is held back. -/
  | isHolding

/-- What comes back. -/
inductive Answer where
  | digest (hash : Digest)
  /-- The input was taken, and nothing comes back. -/
  | taken
  | drained (hash : Option Digest)
  | holding (full : Bool)
deriving DecidableEq

/-- A machine answers a request. -/
def Machine.answer (m : Machine) : Request → Answer × Machine
  | .hash input => ((m.hash p input).1 |> .digest, (m.hash p input).2)
  | .prime input => (.taken, m.prime p input)
  | .advance input => ((m.advance p input).1 |> .digest, (m.advance p input).2)
  | .drain => ((m.drain p).1 |> .drained, (m.drain p).2)
  | .isHolding => (.holding m.isHolding, m)

/-- A slot answers a request, where `hashOf` is the hash of an input. This is all that a machine is. -/
def Slot.answer (hashOf : ByteArray → Digest) (slot : Option ByteArray) :
    Request → Answer × Option ByteArray
  | .hash input => (.digest (hashOf input), slot)
  | .prime input => (.taken, some input)
  | .advance input => (.digest (hashOf (slot.getD input)), some input)
  | .drain => (.drained (slot.map hashOf), none)
  | .isHolding => (.holding slot.isSome, slot)

/-- The answers of any number of machines, or slots, to a sequence of requests. Each request names the
    machine that it is for. -/
def serve {State : Type} (answer : State → Request → Answer × State) :
    (Nat → State) → List (Nat × Request) → List Answer
  | _, [] => []
  | states, (i, request) :: rest =>
    (answer (states i) request).1 ::
      serve answer (Function.update states i (answer (states i) request).2) rest

/-! ## The simulation -/

/-- A machine on a store shows a slot: it keeps the seed of the input in the slot. -/
structure Machine.Shows (store : Store) (m : Machine) (slot : Option ByteArray) : Prop where
  store_eq : m.store = store
  held_eq : m.held = slot.map (store.seedOf p)

namespace Machine.Shows

variable {p} {store : Store} {m : Machine} {slot : Option ByteArray}

theorem new (store : Store) : (Machine.new store).Shows p store none := ⟨rfl, rfl⟩

theorem hash (h : m.Shows p store slot) (input : ByteArray) :
    (m.hash p input).1 = freshHash p store input ∧ (m.hash p input).2.Shows p store slot := by
  obtain ⟨rfl, hheld⟩ := h
  have hwork := work_spec p m (m.store.seedOf p input)
  unfold Machine.hash
  exact ⟨work_seedOf p m input, hwork.2.1, hwork.2.2.trans hheld⟩

/-- Any input that was held back is dropped. -/
theorem prime (h : m.Shows p store slot) (input : ByteArray) :
    (m.prime p input).Shows p store (some input) := by
  obtain ⟨rfl, -⟩ := h
  exact ⟨rfl, rfl⟩

theorem advance (h : m.Shows p store slot) (input : ByteArray) :
    (m.advance p input).1 = freshHash p store (slot.getD input) ∧
      (m.advance p input).2.Shows p store (some input) := by
  obtain ⟨rfl, hheld⟩ := h
  -- the seed that is worked on: of what is in the slot, or else of the new input
  have hprevious : m.held.getD (m.store.seedOf p input) = m.store.seedOf p (slot.getD input) := by
    rw [hheld]
    cases slot with
    | none => rfl
    | some previous => rfl
  have hwork := work_spec p { m with held := some (m.store.seedOf p input) }
    (m.store.seedOf p (slot.getD input))
  simp only [Machine.advance, hprevious]
  exact ⟨work_seedOf p { m with held := some (m.store.seedOf p input) } (slot.getD input),
    hwork.2.1, hwork.2.2⟩

theorem drain (h : m.Shows p store slot) :
    (m.drain p).1 = slot.map (freshHash p store) ∧ (m.drain p).2.Shows p store none := by
  obtain ⟨rfl, hheld⟩ := h
  cases slot with
  | none =>
    have hempty : m.held = none := hheld
    simp only [Machine.drain, hempty]
    exact ⟨rfl, rfl, hempty⟩
  | some input =>
    have hfull : m.held = some (m.store.seedOf p input) := hheld
    -- the slot is emptied first; a machine works the same whether it holds something or not
    have hvalue := work_seedOf p { m with held := none } input
    have hwork := (work_spec p { m with held := none } (m.store.seedOf p input)).2
    rcases hresult : work p { m with held := none } (m.store.seedOf p input) with ⟨hash, next⟩
    simp only [hresult] at hvalue hwork
    simp only [Machine.drain, hfull, hresult]
    exact ⟨congrArg some hvalue, hwork.1, hwork.2⟩

theorem isHolding (h : m.Shows p store slot) : m.isHolding = slot.isSome := by
  rw [Machine.isHolding, h.held_eq, Option.isSome_map]

/-- One request: the machine answers as the slot does, and shows what the slot has become. -/
theorem answer (h : m.Shows p store slot) (request : Request) :
    (m.answer p request).1 = (Slot.answer (freshHash p store) slot request).1 ∧
      (m.answer p request).2.Shows p store (Slot.answer (freshHash p store) slot request).2 := by
  cases request with
  | hash input =>
    obtain ⟨hvalue, hnext⟩ := h.hash input
    simp only [Machine.answer, Slot.answer, hvalue]
    exact ⟨trivial, hnext⟩
  | prime input => exact ⟨rfl, h.prime input⟩
  | advance input =>
    obtain ⟨hvalue, hnext⟩ := h.advance input
    simp only [Machine.answer, Slot.answer, hvalue]
    exact ⟨trivial, hnext⟩
  | drain =>
    obtain ⟨hvalue, hnext⟩ := h.drain
    simp only [Machine.answer, Slot.answer, hvalue]
    exact ⟨trivial, hnext⟩
  | isHolding => exact ⟨congrArg Answer.holding h.isHolding, h⟩

end Machine.Shows

/-- Any number of requests to any number of machines that show slots. -/
theorem serve_eq_serve {store : Store} (requests : List (Nat × Request))
    (machines : Nat → Machine) (slots : Nat → Option ByteArray)
    (hshows : ∀ i, (machines i).Shows p store (slots i)) :
    serve (Machine.answer p) machines requests =
      serve (Slot.answer (freshHash p store)) slots requests := by
  -- by induction on the requests: after each of them every machine still shows its slot
  induction requests generalizing machines slots with
  | nil => rfl
  | cons request rest ih =>
    obtain ⟨i, request⟩ := request
    obtain ⟨hanswer, hnext⟩ := (hshows i).answer request
    simp only [serve]
    rw [hanswer]
    congr 1
    apply ih
    intro j
    -- only the machine that was asked has moved on
    by_cases hj : j = i
    · subst hj
      rw [Function.update_self, Function.update_self]
      exact hnext
    · rw [Function.update_of_ne hj, Function.update_of_ne hj]
      exact hshows j

/-- **Machines are slots.** All answers of any number of new machines on one store, whatever they are asked
    and in whatever order, are those of slots that start empty, with the hash of an input by a machine
    that has done nothing else. -/
theorem machines_answer_as_slots (store : Store) (requests : List (Nat × Request)) :
    serve (Machine.answer p) (fun _ => Machine.new store) requests =
      serve (Slot.answer (freshHash p store)) (fun _ => none) requests :=
  serve_eq_serve p requests _ _ fun _ => .new store

end NonceSweep.Engine
