import NonceSweep.Proofs.Pool.Custody
import NonceSweep.Proofs.Pool.Loop

/-!
# The calls of a worker

Which calls a worker makes is fixed by its strategy and by the inputs that it hands in: one call for each input,
or a batch. It does not depend on what hashers answer. A worker whose hasher breaks off has only begun with the
calls.

## Main results

- `Worker.CallsInOrder.step`: what every step preserves
- `Worker.CallsInOrder.calls_eq`: the calls of a worker that has ended
-/

namespace NonceSweep

variable {b : Backend}

/-- The calls that put inputs through. -/
def Strategy.calls (strategy : Strategy) (inputs : List ByteArray) : List Call :=
  if strategy.batched then batch inputs else inputs.map .hash

/-- The inputs can be read off the calls. -/
theorem Strategy.filterMap_input?_calls (strategy : Strategy) (inputs : List ByteArray) :
    (strategy.calls inputs).filterMap Call.input? = inputs := by
  have hadvances : ∀ rest : List ByteArray, (rest.map Call.advance).filterMap Call.input? = rest := by
    intro rest
    rw [List.filterMap_map]
    exact List.filterMap_some
  unfold calls
  split
  · cases inputs with
    | nil => rfl
    | cons first rest =>
      show first :: (rest.map Call.advance ++ [Call.drain]).filterMap Call.input? = first :: rest
      rw [List.filterMap_append, hadvances]
      exact congrArg _ (List.append_nil rest)
  · rw [List.filterMap_map]
    exact List.filterMap_some

theorem submissions_eq_filterMap_calls (actions : List Action) :
    submissions actions = (calls actions).filterMap Call.input? := by
  rw [submissions, calls, List.filterMap_filterMap]
  apply List.filterMap_congr
  intro a _
  cases a <;> rfl

namespace Worker

/-- The calls with which a worker has begun: some inputs are handed in, and in a batch the last of them is still
    with the hasher. -/
def Begun (w : Worker b) (made : List Call) : Prop :=
  if w.strategy.batched then ∃ (first : ByteArray) (rest : List ByteArray), made = .prime first :: rest.map .advance
  else ∃ inputs : List ByteArray, made = inputs.map .hash

/-- **The calls that a worker has made**, by the place where it stands. -/
def CallsInOrder (w : Worker b) (made : List Call) : Prop :=
  match w.point with
  | .binding .. | .claiming false | .submitting _ false =>
    (w.strategy.batched = true → made = []) ∧ ∃ inputs, made = w.strategy.calls inputs
  | .claiming true | .submitting _ true | .draining => w.strategy.batched = true ∧ w.Begun made
  | .finishing _ false | .merging _ false => w.Begun made
  | .finishing _ true | .merging _ true | .leaving | .releasing | .ended =>
    ∃ inputs, made = w.strategy.calls inputs
  | .failed => True

variable {w w' : Worker b} {made : List Call}

theorem begun_batched (hbatched : w.strategy.batched = true) :
    w.Begun made ↔
      ∃ (first : ByteArray) (rest : List ByteArray), made = .prime first :: rest.map .advance := by
  rw [Begun, if_pos hbatched]

/-- One by one, a worker may always stop. -/
theorem begun_single (hsingle : ¬ w.strategy.batched = true) :
    w.Begun made ↔ ∃ inputs, made = w.strategy.calls inputs := by
  simp only [Begun, Strategy.calls, if_neg hsingle]

namespace CallsInOrder

theorem new {index : Nat} {strategy : Strategy} {bound : UInt64} {hasher : b.Hasher} {template : Template}
    {point : Point}
    (hpoint : point = .claiming false ∨ ∃ processor allowed, point = .binding processor allowed) :
    (Worker.new index strategy bound hasher template point).CallsInOrder [] := by
  have hnone : [] = strategy.calls [] := by
    unfold Strategy.calls
    split <;> rfl
  rcases hpoint with rfl | ⟨processor, allowed, rfl⟩
  · exact ⟨fun _ => rfl, [], hnone⟩
  · exact ⟨fun _ => rfl, [], hnone⟩

theorem claim (h : w.CallsInOrder made) {primed : Bool} (hpoint : w.point = .claiming primed)
    (next : UInt64) :
    ({ w with
      point :=
        if next < w.bound then .submitting next primed
        else if primed then .draining else .leaving } : Worker b).CallsInOrder made := by
  unfold CallsInOrder at h
  rw [hpoint] at h
  by_cases hbelow : next < w.bound
  · rw [if_pos hbelow]
    cases primed <;> exact h
  · rw [if_neg hbelow]
    cases primed with
    | true => exact h
    | false => exact h.2

theorem submit (h : w.CallsInOrder made) {value : UInt64} {primed : Bool} {next : Call}
    (hpoint : w.point = .submitting value primed) (hnext : (w.submit value primed).1 = .call next) :
    (w.submit value primed).2.CallsInOrder (made ++ [next]) := by
  unfold CallsInOrder at h
  rw [hpoint] at h
  by_cases hbatched : w.strategy.batched = true
  · cases primed with
    | true =>
      obtain ⟨first, rest, rfl⟩ := (begun_batched hbatched).mp h.2
      rw [submit_advance hbatched rfl] at hnext ⊢
      cases hnext
      cases (b.advance w.hasher (w.spare.patch value.toUInt32).bytes).1 with
      | done hash =>
        refine (begun_batched hbatched).mpr ⟨first, rest ++ [(w.spare.patch value.toUInt32).bytes], ?_⟩
        rw [List.map_append, ← List.cons_append]
        rfl
      | panicked => exact trivial
    | false =>
      obtain rfl := h.1 hbatched
      rw [submit_prime hbatched rfl] at hnext ⊢
      cases hnext
      cases (b.prime w.hasher (w.current.patch value.toUInt32).bytes).1 with
      | done _ => exact ⟨hbatched, (begun_batched hbatched).mpr ⟨_, [], rfl⟩⟩
      | panicked => exact trivial
  · cases primed with
    | true => exact absurd h.1 hbatched
    | false =>
      obtain ⟨inputs, rfl⟩ := h.2
      rw [submit_hash hbatched rfl] at hnext ⊢
      cases hnext
      cases (b.hash w.hasher (w.current.patch value.toUInt32).bytes).1 with
      | done hash =>
        refine (begun_single hbatched).mpr ⟨inputs ++ [(w.current.patch value.toUInt32).bytes], ?_⟩
        rw [Strategy.calls, Strategy.calls, if_neg hbatched, if_neg hbatched, List.map_append]
        rfl
      | panicked => exact trivial

/-- To drain a batch ends it. -/
theorem drain (h : w.CallsInOrder made) (hpoint : w.point = .draining) :
    w.drain.2.CallsInOrder (made ++ [.drain]) := by
  unfold CallsInOrder at h
  rw [hpoint] at h
  obtain ⟨hbatched, hbegun⟩ := h
  obtain ⟨first, rest, rfl⟩ := (begun_batched hbatched).mp hbegun
  have hwhole : ∃ inputs, .prime first :: rest.map .advance ++ [.drain] = w.strategy.calls inputs := by
    refine ⟨first :: rest, ?_⟩
    rw [Strategy.calls, if_pos hbatched]
    rfl
  unfold CallsInOrder Worker.drain
  dsimp only
  rcases (b.drain w.hasher).1 with (_ | _) | _
  · exact hwhole
  · exact hwhole
  · exact trivial

theorem merge (h : w.CallsInOrder made) {update : Fingerprint} {last : Bool}
    (hpoint : w.point = .merging update last) : (w.merge update last).2.CallsInOrder made := by
  unfold CallsInOrder at h
  rw [hpoint] at h
  cases last with
  | true => exact h
  | false =>
    by_cases hbatched : w.strategy.batched = true
    · rw [merge_batched hbatched]
      exact ⟨hbatched, h⟩
    · rw [merge_single hbatched]
      exact ⟨fun hboth => absurd hboth hbatched, (begun_single hbatched).mp h⟩

/-- **Every step of a worker keeps its calls in order.** -/
theorem step {actions : List Action} (h : w.CallsInOrder (calls actions)) {next : UInt64} {a : Action}
    (hstep : w.step next = some (a, w')) : w'.CallsInOrder (calls (actions ++ [a])) := by
  have hplace := h
  unfold CallsInOrder at hplace
  cases move_of_step hstep with
  | claim hpoint =>
    rw [calls_concat_of_none actions rfl]
    exact h.claim hpoint next
  | submit hpoint hmade =>
    rw [calls_concat_call]
    exact h.submit hpoint hmade
  | drain hpoint =>
    rw [calls_concat_call]
    exact h.drain hpoint
  | merge hpoint =>
    rw [calls_concat_of_none actions rfl]
    exact h.merge hpoint
  | @finish hash last hpoint =>
    rw [calls_concat_of_none actions rfl]
    rw [hpoint] at hplace
    unfold CallsInOrder Worker.finish
    dsimp only
    rcases (if w.strategy.commits then b.commitment w.current.bytes hash else .done hash) with _ | _
    · cases last <;> exact hplace
    · exact trivial
  | release hpoint =>
    rw [calls_concat_of_none actions rfl]
    rw [hpoint] at hplace
    unfold CallsInOrder
    cases b.release w.hasher with
    | done _ => exact hplace
    | panicked => exact trivial
  | bind hpoint | leave hpoint =>
    rw [calls_concat_of_none actions rfl]
    rw [hpoint] at hplace
    exact hplace

/-- **A worker that has ended has made the calls that put its inputs through**, and no other. -/
theorem calls_eq {actions : List Action} (h : w.CallsInOrder (calls actions)) (hended : w.point = .ended) :
    calls actions = w.strategy.calls (submissions actions) := by
  unfold CallsInOrder at h
  rw [hended] at h
  obtain ⟨inputs, hinputs⟩ := h
  -- the inputs are read off the calls, so they are the ones that were handed in
  rw [submissions_eq_filterMap_calls, hinputs, Strategy.filterMap_input?_calls]

end CallsInOrder

end Worker

end NonceSweep
