import NonceSweep.Proofs.Pool.Books

/-!
# What is left with a hasher

A worker that hashes in a batch has an input in its hasher whenever it comes back to its loop: that of its
`current` candidate. A worker that hashes one by one never leaves an input there. Both are read off the
calls that were made, so it does not matter what hashers answer, nor whether they break off.

## Main results

- `Worker.InCustody.step`: what every step preserves
- `Pool.Steps.inCustody`: what holds of all workers along every run
-/

namespace NonceSweep

variable {b : Backend}

theorem held_concat (made : List Call) (next : Call) :
    held (made ++ [next]) = next.held (held made) := by
  rw [held, List.foldl_append]
  rfl

theorem calls_concat_of_none (actions : List Action) {a : Action} (h : a.called? = none) :
    calls (actions ++ [a]) = calls actions := by
  simp [calls, h]

theorem calls_concat_call (actions : List Action) (made : Call) :
    calls (actions ++ [.call made]) = calls actions ++ [made] := by
  rw [calls, List.filterMap_append]
  rfl

namespace Worker

/-- **The input that the calls of a worker have left in its hasher**, by the place where the worker stands.
    In a batch no call has been made before the first turn of the loop. -/
def InCustody (w : Worker b) (made : List Call) : Prop :=
  match w.point with
  | .binding .. | .claiming false | .submitting _ false =>
    held made = none ∧ (w.strategy.batched = true → made = [])
  | .claiming true | .submitting _ true | .draining =>
    w.strategy.batched = true ∧ held made = some w.current.bytes
  | .finishing _ false | .merging _ false =>
    held made = if w.strategy.batched then some w.spare.bytes else none
  | .finishing _ true | .merging _ true | .leaving | .releasing | .ended => held made = none
  | .failed => True

namespace InCustody

variable {w w' : Worker b} {made : List Call}

theorem new {index : Nat} {strategy : Strategy} {bound : UInt64} {hasher : b.Hasher} {template : Template}
    {point : Point}
    (hpoint : point = .claiming false ∨ ∃ processor allowed, point = .binding processor allowed) :
    (Worker.new index strategy bound hasher template point).InCustody [] := by
  rcases hpoint with rfl | ⟨processor, allowed, rfl⟩
  · exact ⟨rfl, fun _ => rfl⟩
  · exact ⟨rfl, fun _ => rfl⟩

theorem claim (h : w.InCustody made) {primed : Bool} (hpoint : w.point = .claiming primed)
    (next : UInt64) :
    ({ w with
      point :=
        if next < w.bound then .submitting next primed
        else if primed then .draining else .leaving } : Worker b).InCustody made := by
  unfold InCustody at h
  rw [hpoint] at h
  by_cases hbelow : next < w.bound
  · rw [if_pos hbelow]
    cases primed <;> exact h
  · rw [if_neg hbelow]
    cases primed with
    | true => exact h
    | false => exact h.1

theorem submit (h : w.InCustody made) {value : UInt64} {primed : Bool} {next : Call}
    (hpoint : w.point = .submitting value primed) (hnext : (w.submit value primed).1 = .call next) :
    (w.submit value primed).2.InCustody (made ++ [next]) := by
  unfold InCustody at h
  rw [hpoint] at h
  by_cases hbatched : w.strategy.batched = true
  · cases primed with
    | true =>
      rw [submit_advance hbatched rfl] at hnext ⊢
      cases hnext
      cases (b.advance w.hasher (w.spare.patch value.toUInt32).bytes).1 with
      | done hash =>
        show held (made ++ _) = if w.strategy.batched then some _ else none
        rw [held_concat, if_pos hbatched]
        rfl
      | panicked => exact trivial
    | false =>
      rw [submit_prime hbatched rfl] at hnext ⊢
      cases hnext
      cases (b.prime w.hasher (w.current.patch value.toUInt32).bytes).1 with
      | done _ =>
        refine ⟨hbatched, ?_⟩
        rw [held_concat]
        rfl
      | panicked => exact trivial
  · cases primed with
    | true => exact absurd h.1 hbatched
    | false =>
      rw [submit_hash hbatched rfl] at hnext ⊢
      cases hnext
      cases (b.hash w.hasher (w.current.patch value.toUInt32).bytes).1 with
      | done hash =>
        show held (made ++ _) = if w.strategy.batched then some _ else none
        rw [held_concat, if_neg hbatched]
        exact h.1
      | panicked => exact trivial

theorem merge (h : w.InCustody made) {update : Fingerprint} {last : Bool}
    (hpoint : w.point = .merging update last) : (w.merge update last).2.InCustody made := by
  unfold InCustody at h
  rw [hpoint] at h
  cases last with
  | true => exact h
  | false =>
    by_cases hbatched : w.strategy.batched = true
    · -- the candidates change places, so that `current` is the one that was handed in last
      rw [merge_batched hbatched]
      refine ⟨hbatched, ?_⟩
      rw [if_pos hbatched] at h
      exact h
    · rw [merge_single hbatched]
      rw [if_neg hbatched] at h
      exact ⟨h, fun hboth => absurd hboth hbatched⟩

/-- **Every step of a worker preserves what is in the custody of its hasher.** -/
theorem step {actions : List Action} (h : w.InCustody (calls actions)) {next : UInt64} {a : Action}
    (hstep : w.step next = some (a, w')) : w'.InCustody (calls (actions ++ [a])) := by
  have hplace := h
  unfold InCustody at hplace
  cases move_of_step hstep with
  | claim hpoint =>
    rw [calls_concat_of_none actions rfl]
    exact h.claim hpoint next
  | submit hpoint hmade =>
    rw [calls_concat_call]
    exact h.submit hpoint hmade
  | merge hpoint =>
    rw [calls_concat_of_none actions rfl]
    exact h.merge hpoint
  | drain hpoint =>
    have hnone : held (calls (actions ++ [.call .drain])) = none := by
      rw [calls_concat_call, held_concat]
      rfl
    unfold InCustody Worker.drain
    dsimp only
    rcases (b.drain w.hasher).1 with (_ | _) | _
    · exact hnone
    · exact hnone
    · exact trivial
  | @finish hash last hpoint =>
    rw [calls_concat_of_none actions rfl]
    rw [hpoint] at hplace
    unfold InCustody Worker.finish
    dsimp only
    rcases (if w.strategy.commits then b.commitment w.current.bytes hash else .done hash) with _ | _
    · cases last <;> exact hplace
    · exact trivial
  | release hpoint =>
    rw [calls_concat_of_none actions rfl]
    rw [hpoint] at hplace
    unfold InCustody
    cases b.release w.hasher with
    | done _ => exact hplace
    | panicked => exact trivial
  | bind hpoint | leave hpoint =>
    rw [calls_concat_of_none actions rfl]
    rw [hpoint] at hplace
    exact hplace

end InCustody

end Worker

/-- **What all workers have left with their hashers, along every run.** -/
theorem Pool.Steps.inCustody {p q : Pool b} {actions : List (Nat × Action)} (hsteps : Steps p actions q)
    (hstart : ∀ (i : Nat) (w : Worker b), p.workers[i]? = some w → w.InCustody []) :
    ∀ (i : Nat) (w : Worker b), q.workers[i]? = some w → w.InCustody (calls (own i actions)) := by
  apply hsteps.induction (motive := fun actions q =>
    ∀ (i : Nat) (w : Worker b), q.workers[i]? = some w → w.InCustody (calls (own i actions))) hstart
  intro done q i a r h hstep
  exact workers_step (motive := fun _ w done => w.InCustody (calls done))
    (fun h hstep => h.step hstep) h hstep

end NonceSweep
