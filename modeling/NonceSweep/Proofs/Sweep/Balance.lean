import NonceSweep.Proofs.Pool.Balance
import NonceSweep.Proofs.Sweep.Outcome

/-!
# A sweep is balanced throughout

From the moment its workers are made, a sweep can account for every number that they have taken, whatever
their interleaving and even if some of them have broken off.

## Main results

- `Sweep.balanced_throughout`: the balance of every pool that a sweep can reach
-/

namespace NonceSweep

namespace Sweep

variable {b : Backend} {task : Task b} {host : Host} {plan : Plan} {shared : b.Shared}

theorem start_inCustody (b : Backend) (host : Host) (plan : Plan) (template : Template)
    (shared : b.Shared) :
    ∀ (i : Nat) (w : Worker b), (firstPool b host plan template shared).workers[i]? = some w →
      w.InCustody [] := by
  intro i w hw
  rw [eq_worker_of_firstPool hw]
  exact Worker.InCustody.new (firstPoint_cases host plan i)

/-- **The balance of a sweep at any moment.** A plan for which there is no table makes no workers. -/
theorem balanced_throughout (honoured : task.Honoured) (hprepared : task.Prepared plan shared)
    (hcheck : plan.check = .ok ()) (hroom : plan.nonces.toNat + plan.threads.toNat < 2 ^ 64) :
    ∃ pool, (start b host plan task.template).result =
        .ok ((table host plan.threads).map fun _ => pool) ∧
      ∀ actions between, Pool.Steps pool actions between →
        between.Balanced task plan.strategy plan.nonces plan.threads.toNat actions := by
  have hstart := start_sound host hprepared
  obtain ⟨raw, hallocate, rfl⟩ := hprepared.setUp
  refine ⟨_, result_start_of_allocate hcheck hallocate task.template, ?_⟩
  intro actions between hsteps
  have hsound := Pool.Sound.of_steps honoured hroom hstart hsteps
  exact hsound.balanced hroom (hsteps.inCustody (start_inCustody _ _ _ _ _))

/-- The first worker claims 0 and hands it in; in between the second claims 1. -/
def firstMoves : List (Nat × Action) :=
  [(0, .claim 0), (1, .claim 1), (0, .call (.prime ((Template.standard.candidate 0).patch 0).bytes))]

theorem steps_firstMoves (store : Engine.Store) :
    ∃ between, Pool.Steps (firstPool (.bundled .standard .sequential) plainHost smallPlan .standard store)
        firstMoves between ∧ between.ledger.dispenser.next = 2 ∧
      ∃ w, between.workers[0]? = some w ∧ w.point = .claiming true :=
  ⟨_, .head rfl (.head rfl (.head rfl (.refl _))), rfl, _, rfl, rfl⟩

/-- Of three workers, the first has come back to its loop, and the second has 1 in hand. -/
theorem balanced_after_first_moves :
    ∃ pool between, (start (.bundled .standard .sequential) plainHost smallPlan .standard).result =
        .ok (.ok pool) ∧
      Pool.Steps pool firstMoves between ∧ between.ledger.dispenser.next = 2 ∧
      outstanding 5 (own 1 firstMoves) = [1] ∧ (absorbedByAll 3 5 firstMoves).count 1 = 0 ∧
      ∃ w, between.workers[0]? = some w ∧ w.point = .claiming true ∧
        held (calls (own 0 firstMoves)) = some w.current.bytes := by
  have hprepared := Backend.bundled_prepared .standard .sequential .standard smallPlan
  obtain ⟨pool, hstart, hbalanced⟩ := @balanced_throughout _ _ plainHost smallPlan _
    (Backend.bundled_honoured .standard .sequential _ .standard) hprepared rfl (by decide)
  have hfirst := @result_start _ _ plainHost smallPlan _ rfl hprepared rfl
  obtain rfl : _ = pool := Except.ok.inj (Except.ok.inj (hfirst.symm.trans hstart))
  obtain ⟨between, hsteps, hnext, w, hw, hpoint⟩ := steps_firstMoves _
  have h := hbalanced firstMoves between hsteps
  have hopen : outstanding 5 (own 1 firstMoves) = [1] := by decide
  have hone := h.absorbed_or_outstanding 1 1 (by decide) (by decide)
  change _ + (outstanding 5 (own 1 firstMoves)).count 1 = 1 at hone
  rw [hopen, List.count_singleton_self] at hone
  obtain ⟨-, v, -, -, hheld, -⟩ := (h.workers 0 w hw).atLoop hpoint
  exact ⟨_, between, hfirst, hsteps, hnext, hopen, Nat.succ.inj hone, w, hw, hpoint, hheld⟩

end Sweep

end NonceSweep
