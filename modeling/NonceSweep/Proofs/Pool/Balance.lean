import NonceSweep.Proofs.Pool.Custody
import NonceSweep.Proofs.Pool.Sound

/-!
# The balance of a pool at work

At any moment of a run, and whether or not workers have broken off, the numbers that were taken are accounted
for: one below the bound either is merged, or is still open with the worker that took it. `Pool.Balanced`
draws up this balance from the invariant of the pool. It speaks only of actions and of what can be seen of
workers, not of their books.

## Main results

- `Worker.Books.balanced`: the balance of one worker
- `Pool.Sound.count_absorbed_add`: every number is merged once or open once
- `Pool.Sound.balanced`: the balance of a pool
-/

namespace NonceSweep

variable {b : Backend}

/-! ## Numbers that are merged and numbers that are open -/

/-- The numbers below a bound that are merged: those that were taken first, as many as there were merges. -/
def absorbed (bound : UInt64) (actions : List Action) : List UInt64 :=
  (useful bound actions).take (merges actions).length

/-- The numbers below a bound that were taken and are not merged. -/
def outstanding (bound : UInt64) (actions : List Action) : List UInt64 :=
  (useful bound actions).drop (merges actions).length

/-- What all workers together have merged. -/
def absorbedByAll (count : Nat) (bound : UInt64) (actions : List (Nat × Action)) : List UInt64 :=
  (List.range count).flatMap fun i => absorbed bound (own i actions)

theorem absorbed_append_outstanding (bound : UInt64) (actions : List Action) :
    absorbed bound actions ++ outstanding bound actions = useful bound actions :=
  List.take_append_drop _ _

theorem mem_claims_of_mem_outstanding {bound : UInt64} {actions : List Action} {v : UInt64}
    (h : v ∈ outstanding bound actions) : v ∈ claims actions :=
  (List.mem_filter.mp (List.mem_of_mem_drop h)).1

/-! ## One worker -/

/-- **The balance of a worker** that has made these actions. -/
structure Worker.Balanced (task : Task b) (strategy : Strategy) (bound : UInt64) (w : Worker b)
    (actions : List Action) : Prop where
  /-- The hashes that are merged are those of the numbers that were taken first. -/
  merges_eq : merges actions = (absorbed bound actions).map (task.share strategy.commits)
  length_outstanding_le : (outstanding bound actions).length ≤ if strategy.batched then 2 else 1
  length_excess_le : (excess bound actions).length ≤ 1
  /-- In a batch, only the first number of all is claimed with nothing in the hasher. -/
  atFirst : w.point = .claiming false → strategy.batched = true → calls actions = []
  /-- A worker that comes back to the loop of a batch has one number open. Its hasher holds back the input
      of it, and no other, and `current` has this input too. -/
  atLoop : w.point = .claiming true → strategy.batched = true ∧
    ∃ v, outstanding bound actions = [v] ∧ w.current.bytes = task.input v ∧
      held (calls actions) = some w.current.bytes ∧ task.Holds w.hasher (some w.current.bytes)

namespace Worker.Books

variable {task : Task b} {w : Worker b} {actions : List Action}

theorem length_merges (h : w.Books task actions) :
    (merges actions).length = (course w.bound actions).merged.length := by
  rw [h.tallies.merges, List.length_map]

theorem absorbed_eq (h : w.Books task actions) :
    absorbed w.bound actions = (course w.bound actions).merged := by
  rw [absorbed, h.length_merges, h.tallies.useful_eq, Course.below, List.append_assoc]
  exact List.take_left

theorem outstanding_eq (h : w.Books task actions) :
    outstanding w.bound actions = (course w.bound actions).handed ++ (course w.bound actions).inHand := by
  rw [outstanding, h.length_merges, h.tallies.useful_eq, Course.below, List.append_assoc]
  exact List.drop_left

/-- **A worker whose books are in order is balanced.** -/
theorem balanced (h : w.Books task actions) (hcustody : w.InCustody (calls actions)) :
    w.Balanced task w.strategy w.bound actions where
  merges_eq := by
    rw [h.absorbed_eq]
    exact h.tallies.merges
  length_outstanding_le := by
    rw [h.outstanding_eq, List.length_append]
    exact h.length_open_le
  length_excess_le := h.diligent.excess_le
  atFirst hpoint := by
    unfold InCustody at hcustody
    rw [hpoint] at hcustody
    exact hcustody.2
  atLoop hpoint := by
    have hstands := h.stands
    unfold Stands at hstands
    unfold InCustody at hcustody
    rw [hpoint] at hstands hcustody
    obtain ⟨hbatched, ⟨v, hhanded, hcurrent, hholds⟩, hhand, -⟩ := hstands
    have hbytes : w.current.bytes = task.input v := by
      rw [hcurrent]
      exact task.bytes_candidate v
    refine ⟨hbatched, v, ?_, hbytes, hcustody.2, ?_⟩
    · rw [h.outstanding_eq, hhanded, hhand]
      rfl
    · rw [hbytes]
      exact hholds

end Worker.Books

/-! ## All workers -/

namespace Pool

/-- **The balance of a pool** whose workers have made these actions. -/
structure Balanced (task : Task b) (strategy : Strategy) (bound : UInt64) (count : Nat)
    (actions : List (Nat × Action)) (p : Pool b) : Prop where
  length_eq : p.workers.length = count
  workers : ∀ (i : Nat) (w : Worker b), p.workers[i]? = some w →
    w.Balanced task strategy bound (own i actions)
  /-- The numbers before the next one have been taken, each of them once. -/
  claims_eq : claims (everyone actions) = ascending p.ledger.dispenser.next.toNat
  byOneWorker : ∀ v < p.ledger.dispenser.next, ∃! i, v ∈ claims (own i actions)
  next_le : p.ledger.dispenser.next.toNat ≤ bound.toNat + count
  /-- A number below the bound is merged once, or else it is open with the worker that took it. -/
  absorbed_or_outstanding : ∀ i, ∀ v ∈ claims (own i actions), v < bound →
    (absorbedByAll count bound actions).count v + (outstanding bound (own i actions)).count v = 1
  value_eq : p.ledger.accumulator.value =
    .xorAll ((absorbedByAll count bound actions).map (task.share strategy.commits))

namespace Sound

variable {task : Task b} {strategy : Strategy} {bound : UInt64} {count : Nat}
  {actions : List (Nat × Action)} {p : Pool b}
  (hroom : bound.toNat + count < 2 ^ 64) (h : p.Sound task strategy bound count actions)

include hroom h

/-- **A number below the bound is merged once, or else it is open with the worker that took it.** -/
theorem count_absorbed_add {i : Nat} {v : UInt64} (hv : v ∈ claims (own i actions)) (hbelow : v < bound) :
    (absorbedByAll count bound actions).count v + (outstanding bound (own i actions)).count v = 1 := by
  have huseful : v ∈ useful bound (own i actions) :=
    List.mem_filter.mpr ⟨hv, decide_eq_true hbelow⟩
  have hi : i ∈ List.range count := by
    by_contra hnone
    rw [own_eq_nil h.named fun hlt => hnone (List.mem_range.mpr hlt)] at hv
    cases hv
  have hsize := h.orderly.taken_le_size hroom
  have hnodup : ((List.range count).flatMap fun j => useful bound (own j actions)).Nodup :=
    (h.orderly.perm_useful hroom).nodup_iff.mp (nodup_ascending (by omega))
  -- all workers together have merged the number or have it open
  have hall : (absorbedByAll count bound actions).count v +
      ((List.range count).flatMap fun j => outstanding bound (own j actions)).count v = 1 := by
    have hsplit := List.flatMap_append_perm (List.range count)
      (fun j => absorbed bound (own j actions)) fun j => outstanding bound (own j actions)
    simp only [absorbed_append_outstanding] at hsplit
    rw [absorbedByAll, ← List.count_append, hsplit.count_eq]
    exact List.count_eq_one_of_mem hnodup (List.mem_flatMap.mpr ⟨i, hi, huseful⟩)
  by_cases hopen : v ∈ outstanding bound (own i actions)
  · have hone : (outstanding bound (own i actions)).count v = 1 := by
      apply List.count_eq_one_of_mem _ hopen
      exact ((List.nodup_flatMap.mp hnodup).1 i hi).sublist (List.drop_sublist _ _)
    have hpos : 0 < ((List.range count).flatMap fun j => outstanding bound (own j actions)).count v :=
      List.count_pos_iff.mpr (List.mem_flatMap.mpr ⟨i, hi, hopen⟩)
    omega
  · -- nor is it open with any other worker, as no other took it
    have hnone : ((List.range count).flatMap fun j => outstanding bound (own j actions)).count v = 0 := by
      rw [List.count_eq_zero, List.mem_flatMap]
      rintro ⟨j, -, hj⟩
      have hunique := h.orderly.existsUnique_claim hroom (h.orderly.lt_next_of_mem_claims hroom hv)
      rw [hunique.unique (mem_claims_of_mem_outstanding hj) hv] at hj
      exact hopen hj
    have hzero := List.count_eq_zero.mpr hopen
    omega

/-- **A sound pool is balanced.** -/
theorem balanced
    (hcustody : ∀ (i : Nat) (w : Worker b), p.workers[i]? = some w → w.InCustody (calls (own i actions))) :
    p.Balanced task strategy bound count actions := by
  have hworkers : ∀ (i : Nat) (w : Worker b), p.workers[i]? = some w →
      w.Balanced task strategy bound (own i actions) := by
    intro i w hw
    have hregular := h.workers i w hw
    have hbalanced := hregular.books.balanced (hcustody i w hw)
    rw [hregular.strategy_eq, hregular.bound_eq] at hbalanced
    exact hbalanced
  have hmerges : (merges (everyone actions)).Perm
      ((absorbedByAll count bound actions).map (task.share strategy.commits)) := by
    have heach : ∀ i ∈ List.range count, (own i actions).filterMap Action.merged? =
        (absorbed bound (own i actions)).map (task.share strategy.commits) := by
      intro i hi
      obtain ⟨w, hw, -⟩ := h.exists_worker (List.mem_range.mp hi)
      exact (hworkers i w hw).merges_eq
    have hperm := filterMap_everyone_perm Action.merged? h.named
    rw [List.flatMap_congr heach, ← List.map_flatMap] at hperm
    exact hperm
  refine {
    length_eq := h.length_eq
    workers := hworkers
    claims_eq := ?_
    byOneWorker := fun v hv => h.orderly.existsUnique_claim hroom hv
    next_le := ?_
    absorbed_or_outstanding := fun i v hv hbelow => h.count_absorbed_add hroom hv hbelow
    value_eq := ?_ }
  · rw [h.orderly.toNat_next hroom]
    exact h.claims_eq
  · rw [h.orderly.toNat_next hroom]
    exact h.taken_le
  · rw [h.value_eq]
    exact Fingerprint.xorAll_perm hmerges

end Sound

end Pool

end NonceSweep
