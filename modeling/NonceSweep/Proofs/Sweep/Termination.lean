import NonceSweep.Proofs.Sweep.Outcome
import Mathlib.Order.WellFounded

/-!
# Every sweep comes to an end

However its workers are interleaved, and whichever of their calls break off, a sweep cannot go on for ever.
It stops only when every worker has stopped. If none has broken off by then, each has taken one number that
is not below the bound, as its last.

## Main results

- `Sweep.ends_under_every_schedule`: a whole sweep, under any interleaving
-/

namespace NonceSweep

namespace Sweep

variable {b : Backend} {host : Host} {plan : Plan}

/-- **What workers have taken when none can go on** and none has broken off: all numbers below the bound,
    and each worker one more, which is its last. -/
structure Exhausted (plan : Plan) (actions : List (Nat × Action)) : Prop where
  taken_eq : taken actions = plan.nonces.toNat + plan.threads.toNat
  last : ∀ i < plan.threads.toNat, ∃ below last, claims (own i actions) = below ++ [last] ∧
    (∀ v ∈ below, v < plan.nonces) ∧ plan.nonces ≤ last

theorem exhausted_of_settled (hcheck : plan.check = .ok ())
    (hroom : plan.nonces.toNat + plan.threads.toNat < 2 ^ 64) {template : Template}
    {actions : List (Nat × Action)} {p : Pool b}
    (h : p.Orderly template plan.nonces plan.threads.toNat actions) (hsettled : p.Settled)
    (hwell : ∀ w ∈ p.workers, w.point ≠ .failed) : Exhausted plan actions := by
  have hended : ∀ w ∈ p.workers, w.point = .ended :=
    fun w hw => (hsettled w hw).resolve_right (hwell w hw)
  refine ⟨h.taken_eq_of_ended hroom (bounds_of_check hcheck).1 hended, ?_⟩
  intro i hi
  obtain ⟨w, hw, -⟩ := h.exists_worker hi
  exact h.claims_eq_of_ended hw (hended w (List.mem_of_getElem? hw))

/-- **A sweep ends under every schedule.** A plan for which there is no table makes no workers. -/
theorem ends_under_every_schedule (hcheck : plan.check = .ok ())
    (hroom : plan.nonces.toNat + plan.threads.toNat < 2 ^ 64) {raw : b.Shared}
    (hallocate : (b.allocate plan.options).2 = .ok raw) (template : Template) :
    ∃ pool, (start b host plan template).result = .ok ((table host plan.threads).map fun _ => pool) ∧
      Acc Pool.After pool ∧
      (¬ ∃ pools : Nat → Pool b, pools 0 = pool ∧ ∀ n, (pools (n + 1)).After (pools n)) ∧
      ∀ actions between, Pool.Steps pool actions between →
        taken actions ≤ plan.nonces.toNat + plan.threads.toNat ∧
        (∀ i w, between.workers[i]? = some w → w.point ≠ .ended → w.point ≠ .failed →
          ∃ a next, between.step i = some (a, next)) ∧
        ((∀ i, between.step i = none) → (∀ w ∈ between.workers, w.point ≠ .failed) →
          Exhausted plan actions) := by
  have hstart := start_orderly b host plan template (seeded b plan raw)
  have hacc := hstart.acc_after hroom
  refine ⟨_, result_start_of_allocate hcheck hallocate template, hacc, ?_, ?_⟩
  · intro hendless
    exact not_acc_iff_exists_descending_chain.mpr hendless hacc
  · intro actions between hsteps
    have horderly := Pool.Orderly.of_steps hroom hstart hsteps
    refine ⟨horderly.taken_le, ?_, ?_⟩
    · intro i w hw hgoing hwell
      exact Pool.exists_step hw (not_or.mpr ⟨hgoing, hwell⟩)
    · intro hnone hwell
      exact exhausted_of_settled hcheck hroom horderly (Pool.settled_iff.mpr hnone) hwell

/-- Three workers take eight numbers to learn that there are five nonces. -/
theorem eight_numbers_for_five_nonces :
    ∃ pool actions, (start (.bundled .standard .sequential) plainHost smallPlan .standard).result =
        .ok (.ok pool) ∧
      Acc Pool.After pool ∧ Pool.Steps pool actions (Pool.inTurn pool) ∧ taken actions = 8 := by
  obtain ⟨pool, hstart, hacc, -, hruns⟩ := @ends_under_every_schedule (.bundled .standard .sequential)
    plainHost smallPlan rfl (by decide) _ rfl .standard
  have hprepared := Backend.bundled_prepared .standard .sequential .standard smallPlan
  have hfirst := @result_start _ _ plainHost smallPlan _ rfl hprepared rfl
  obtain rfl : _ = pool := Except.ok.inj (Except.ok.inj (hfirst.symm.trans hstart))
  obtain ⟨hsettled, actions, hsteps⟩ := Pool.inTurn_isComplete (firstPool _ plainHost smallPlan _ _)
  have hwell := Pool.Sound.none_failed (Backend.bundled_honoured .standard .sequential _ .standard)
    ((Backend.bundled_unbroken .standard .sequential _ .standard).steady _) (by decide)
    (start_sound plainHost hprepared) start_well hsteps
  exact ⟨_, actions, hfirst, hacc, hsteps,
    ((hruns actions _ hsteps).2.2 (Pool.settled_iff.mp hsettled) hwell).taken_eq⟩

end Sweep

end NonceSweep
