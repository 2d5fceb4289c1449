import NonceSweep.Proofs.Outcome.Exclusive
import NonceSweep.Proofs.Pool.Books

/-!
# The invariant of a pool

Workers of a pool race for numbers, and each has its own books. What holds the books together is that the
dispenser hands out every number once and in ascending order: whatever has become of the numbers that the
workers took, taken together they are 0, 1, 2, and so on.

The dispenser would start again at zero after the last 64-bit number. It never does, if the bound and the
number of workers together leave room for it: a worker takes only one number that is not below the bound.

## Main results

- `Pool.Sound.step`, `Pool.Sound.of_steps`: the invariant of a pool
- `Pool.Sound.orderly`: what it promises whatever hashers answer
- `Pool.Sound.perm_below`: the numbers below the bound that were taken, and who took them
- `Pool.Sound.none_failed`: without calls that break off, no worker fails
-/

namespace NonceSweep

variable {b : Backend}

/-! ## The accumulator -/

/-- Whatever is merged goes into the accumulator. -/
theorem Ledger.value_record (l : Ledger) (a : Action) :
    (l.record a).accumulator.value = l.accumulator.value ^^^ .xorAll (merges [a]) := by
  cases a with
  | merge update =>
    show (l.accumulator.merge update).value = l.accumulator.value ^^^ .xorAll [update]
    rw [Accumulator.value_merge, Fingerprint.xorAll_cons]
    exact congrArg _ (Fingerprint.xor_zero update).symm
  | log _ | claim _ | call _ | finish _ _ | release => exact (Fingerprint.xor_zero _).symm

/-! ## The invariant -/

/-- Worker `i` of a pool is set up like all others, and its books are in order. -/
structure Worker.Regular (task : Task b) (strategy : Strategy) (bound : UInt64) (i : Nat)
    (actions : List (Nat × Action)) (w : Worker b) : Prop where
  index_eq : w.index = i
  strategy_eq : w.strategy = strategy
  bound_eq : w.bound = bound
  books : w.Books task (own i actions)

namespace Pool

/-- **The invariant of a pool** whose workers have made these actions. -/
structure Sound (task : Task b) (strategy : Strategy) (bound : UInt64) (count : Nat)
    (actions : List (Nat × Action)) (p : Pool b) : Prop where
  length_eq : p.workers.length = count
  workers : ∀ (i : Nat) (w : Worker b), p.workers[i]? = some w →
    w.Regular task strategy bound i actions
  named : ∀ step ∈ actions, step.1 < count
  claims_eq : claims (everyone actions) = ascending (taken actions)
  next_eq : p.ledger.dispenser.next = UInt64.ofNat (taken actions)
  value_eq : p.ledger.accumulator.value = .xorAll (merges (everyone actions))
  taken_le : taken actions ≤ bound.toNat + count

namespace Sound

variable {task : Task b} {strategy : Strategy} {bound : UInt64} {count : Nat}
  {actions : List (Nat × Action)} {p q : Pool b}

/-- A sound pool is in order. -/
theorem orderly (h : p.Sound task strategy bound count actions) :
    p.Orderly task.template bound count actions where
  length_eq := h.length_eq
  workers i w hw :=
    have hregular := h.workers i w hw
    ⟨hregular.index_eq, hregular.bound_eq, hregular.books.diligent⟩
  named := h.named
  dispensed := ⟨h.claims_eq, h.next_eq⟩
  taken_le := h.taken_le

theorem exists_worker (h : p.Sound task strategy bound count actions) {i : Nat} (hi : i < count) :
    ∃ w : Worker b, p.workers[i]? = some w ∧ w.Regular task strategy bound i actions := by
  have hlt : i < p.workers.length := h.length_eq ▸ hi
  have hw : p.workers[i]? = some p.workers[i] := List.getElem?_eq_getElem hlt
  exact ⟨_, hw, h.workers i _ hw⟩

/-- A worker goes on, and its books stay in order. -/
theorem regular_step (honoured : task.Honoured) {i : Nat} {w w' : Worker b} {done : List Action}
    {next : UInt64} {a : Action}
    (h : w.index = i ∧ w.strategy = strategy ∧ w.bound = bound ∧ w.Books task done)
    (hstep : w.step next = some (a, w')) :
    w'.index = i ∧ w'.strategy = strategy ∧ w'.bound = bound ∧ w'.Books task (done ++ [a]) := by
  obtain ⟨hindex, hstrategy, hbound⟩ := Worker.step_frame hstep
  exact ⟨hindex.trans h.1, hstrategy.trans h.2.1, hbound.trans h.2.2.1, h.2.2.2.step honoured hstep⟩

/-- **Every step of a pool preserves the invariant**, as long as numbers do not start again at zero. -/
theorem step (honoured : task.Honoured) (hroom : bound.toNat + count < 2 ^ 64)
    (h : p.Sound task strategy bound count actions) {i : Nat} {a : Action}
    (hstep : p.step i = some (a, q)) : q.Sound task strategy bound count (actions ++ [(i, a)]) := by
  have horderly := h.orderly.step hroom hstep
  have hworkers := workers_step
    (motive := fun j w done =>
      w.index = j ∧ w.strategy = strategy ∧ w.bound = bound ∧ w.Books task done)
    (regular_step honoured)
    (fun j w hw =>
      have hregular := h.workers j w hw
      ⟨hregular.index_eq, hregular.strategy_eq, hregular.bound_eq, hregular.books⟩)
    hstep
  have hvalue : q.ledger.accumulator.value = .xorAll (merges (everyone (actions ++ [(i, a)]))) := by
    obtain ⟨w, w', -, -, rfl⟩ := step_eq_some hstep
    rw [everyone_concat, merges, List.filterMap_append, ← merges, Fingerprint.xorAll_append, ← h.value_eq]
    exact p.ledger.value_record a
  refine ⟨horderly.length_eq, ?_, horderly.named, horderly.dispensed.claims_eq,
    horderly.dispensed.next_eq, hvalue, horderly.taken_le⟩
  intro j w hw
  obtain ⟨hindex, hstrategy, hbound, hbooks⟩ := hworkers j w hw
  exact ⟨hindex, hstrategy, hbound, hbooks⟩

/-- New workers, with numbers counted from zero. -/
theorem start {workers : List (Worker b)} (hlength : workers.length = count)
    (hworkers : ∀ (i : Nat) (w : Worker b), workers[i]? = some w →
      w.Regular task strategy bound i []) :
    (⟨workers, .startingAt 0⟩ : Pool b).Sound task strategy bound count [] :=
  ⟨hlength, hworkers, fun _ hmem => absurd hmem List.not_mem_nil, rfl, rfl, rfl, Nat.zero_le _⟩

/-- **The invariant holds along every run.** -/
theorem of_steps (honoured : task.Honoured) (hroom : bound.toNat + count < 2 ^ 64)
    (hstart : p.Sound task strategy bound count []) (hsteps : Steps p actions q) :
    q.Sound task strategy bound count actions :=
  hsteps.induction hstart fun h hstep => h.step honoured hroom hstep

/-- The numbers below the bound that were taken are those in the books of the workers. -/
theorem perm_below (hroom : bound.toNat + count < 2 ^ 64)
    (h : p.Sound task strategy bound count actions) :
    (ascending (min (taken actions) bound.toNat)).Perm
      ((List.range count).flatMap fun i => (course bound (own i actions)).below) := by
  have heach : ∀ i ∈ List.range count,
      useful bound (own i actions) = (course bound (own i actions)).below := by
    intro i hi
    obtain ⟨w, -, hregular⟩ := h.exists_worker (List.mem_range.mp hi)
    have huseful := hregular.books.tallies.useful_eq
    rw [hregular.bound_eq] at huseful
    exact huseful
  rw [← List.flatMap_congr heach]
  exact h.orderly.perm_useful hroom

/-- If calls do not break off, no worker does. -/
theorem none_failed (honoured : task.Honoured) (steady : task.Steady strategy.commits)
    (hroom : bound.toNat + count < 2 ^ 64) (hstart : p.Sound task strategy bound count [])
    (hwell : ∀ w ∈ p.workers, w.point ≠ .failed) (hsteps : Steps p actions q) :
    ∀ w ∈ q.workers, w.point ≠ .failed := by
  -- that no worker has failed says nothing of the next step without the books
  have hboth : q.Sound task strategy bound count actions ∧ ∀ w ∈ q.workers, w.point ≠ .failed := by
    apply hsteps.induction (motive := fun actions q =>
      q.Sound task strategy bound count actions ∧ ∀ w ∈ q.workers, w.point ≠ .failed)
    · exact ⟨hstart, hwell⟩
    · intro done q i a r ⟨hsound, hfine⟩ hstep
      refine ⟨hsound.step honoured hroom hstep, ?_⟩
      obtain ⟨w, w', hw, hworker, rfl⟩ := step_eq_some hstep
      intro u hu
      rcases List.mem_or_eq_of_mem_set hu with hold | rfl
      · exact hfine u hold
      · have hregular := hsound.workers i w hw
        rw [← hregular.strategy_eq] at steady
        exact hregular.books.not_failed steady hworker
  exact hboth.2

end Sound

end Pool

end NonceSweep
