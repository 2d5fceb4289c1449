import NonceSweep.Proofs.Pool.Diligence

/-!
# Every run comes to an end

What is left to do in a pool is what is left to each of its workers. A step leaves its worker less to do.
To the others it leaves no more: if anything, a number has been taken that they will not take any more.
So no run is longer than what is left to do at its start, and every run can be gone on with until the pool
has settled. None of this depends on what the hashers answer, or on whether they break off.

## Main results

- `Pool.Orderly.work_step`: what a step leaves
- `Pool.Orderly.length_add_work_le`: the length of a run
- `Pool.Orderly.acc_after`: no pool can be stepped for ever
- `Pool.Orderly.exists_settled`: a run can always be brought to its end
-/

namespace NonceSweep

/-! ## What is left to do -/

theorem Point.work_mono (point : Point) {left left' : Nat} (hle : left' ≤ left) :
    point.work left' ≤ point.work left := by
  cases point with
  | finishing hash last | merging update last => cases last <;> simp only [work] <;> omega
  | binding | claiming | submitting | draining | leaving | releasing | ended | failed =>
    simp only [work]
    omega

theorem Point.work_le (point : Point) (left : Nat) : point.work left ≤ 4 * left + 10 := by
  cases point with
  | finishing hash last | merging update last => cases last <;> simp only [work] <;> omega
  | binding | claiming | submitting | draining | leaving | releasing | ended | failed =>
    simp only [work]
    omega

/-- One element of a list is replaced by a lighter one, and no other gets heavier. -/
theorem sum_map_set_lt {α : Type} {before after : α → Nat} {l : List α} {i : Nat} {x y : α}
    (hx : l[i]? = some x) (hle : ∀ z ∈ l, after z ≤ before z) (hlt : after y < before x) :
    ((l.set i y).map after).sum < (l.map before).sum := by
  -- all elements in front of the replaced one are compared one by one
  induction l generalizing i with
  | nil => cases hx
  | cons first rest ih =>
    have hrest : (rest.map after).sum ≤ (rest.map before).sum := by
      apply List.sum_le_sum
      intro z hz
      exact hle z (List.mem_cons_of_mem first hz)
    cases i with
    | zero =>
      cases hx
      rw [List.set_cons_zero, List.map_cons, List.map_cons, List.sum_cons, List.sum_cons]
      omega
    | succ i =>
      have hlater := ih hx fun z hz => hle z (List.mem_cons_of_mem first hz)
      have hfirst := hle first List.mem_cons_self
      rw [List.set_cons_succ, List.map_cons, List.map_cons, List.sum_cons, List.sum_cons]
      omega

variable {b : Backend}

namespace Pool

/-- One pool comes right after another: some worker makes a step. -/
def After (q p : Pool b) : Prop := ∃ i a, p.step i = some (a, q)

/-- Steps that a pool can still make, at most. -/
def work (p : Pool b) : Nat :=
  (p.workers.map fun w => w.point.work (w.left p.ledger.dispenser.next)).sum

namespace Orderly

variable {template : Template} {bound : UInt64} {count : Nat} {actions : List (Nat × Action)}
  {p q : Pool b}

/-- Numbers are counted up, and do not start again at zero. -/
theorem next_le_next (hroom : bound.toNat + count < 2 ^ 64)
    (h : p.Orderly template bound count actions) {i : Nat} {a : Action}
    (hstep : p.step i = some (a, q)) :
    p.ledger.dispenser.next.toNat ≤ q.ledger.dispenser.next.toNat := by
  rw [h.toNat_next hroom, (h.step hroom hstep).toNat_next hroom]
  exact (h.dispensed.step hstep).2.1

/-- A step leaves less to do. -/
theorem work_step (hroom : bound.toNat + count < 2 ^ 64)
    (h : p.Orderly template bound count actions) {i : Nat} {a : Action}
    (hstep : p.step i = some (a, q)) : q.work < p.work := by
  have hgrows := h.next_le_next hroom hstep
  obtain ⟨w, w', hw, hworker, rfl⟩ := step_eq_some hstep
  apply sum_map_set_lt hw
  · -- the others: what is left below the bound can only get less
    intro u _
    apply Point.work_mono
    unfold Worker.left
    exact Nat.sub_le_sub_left hgrows _
  · exact Worker.work_step hworker

/-- **No run is longer than what is left to do.** -/
theorem length_add_work_le (hroom : bound.toNat + count < 2 ^ 64)
    (hstart : p.Orderly template bound count []) (hsteps : Steps p actions q) :
    actions.length + q.work ≤ p.work := by
  -- the invariant comes along, as a step leaves less only in a pool that is in order
  have hboth : q.Orderly template bound count actions ∧ actions.length + q.work ≤ p.work := by
    apply hsteps.induction (motive := fun actions q =>
      q.Orderly template bound count actions ∧ actions.length + q.work ≤ p.work)
    · exact ⟨hstart, by simp⟩
    · intro done q i a r ⟨horderly, hle⟩ hstep
      have hless := horderly.work_step hroom hstep
      refine ⟨horderly.step hroom hstep, ?_⟩
      rw [List.length_append, List.length_singleton]
      omega
  exact hboth.2

/-- What is left to do at the start. -/
theorem work_le (h : p.Orderly template bound count actions) :
    p.work ≤ count * (4 * bound.toNat + 10) := by
  have heach : ∀ n ∈ p.workers.map fun w => w.point.work (w.left p.ledger.dispenser.next),
      n ≤ 4 * bound.toNat + 10 := by
    intro n hn
    obtain ⟨w, hmem, rfl⟩ := List.mem_map.mp hn
    obtain ⟨i, hw⟩ := List.getElem?_of_mem hmem
    -- a worker has at most all numbers below the bound before it
    have hleft : w.left p.ledger.dispenser.next ≤ bound.toNat := by
      rw [← (h.workers i w hw).bound_eq]
      exact Nat.sub_le _ _
    have hwork := w.point.work_le (w.left p.ledger.dispenser.next)
    omega
  have hsum := List.sum_le_card_nsmul _ _ heach
  rw [List.length_map, h.length_eq] at hsum
  exact hsum

/-- **No pool can be stepped for ever**: the pools that come after one another lead down from this one. -/
theorem acc_after (hroom : bound.toNat + count < 2 ^ 64)
    (h : p.Orderly template bound count actions) : Acc After p := by
  -- by induction on what is left to do
  induction hwork : p.work using Nat.strong_induction_on generalizing p actions with
  | _ n ih =>
    constructor
    rintro q ⟨i, a, hstep⟩
    have hless := h.work_step hroom hstep
    exact ih q.work (hwork ▸ hless) (h.step hroom hstep) rfl

/-- **Any run can be gone on with until the pool has settled.** -/
theorem exists_settled (hroom : bound.toNat + count < 2 ^ 64)
    (h : p.Orderly template bound count actions) :
    ∃ rest q, Steps p rest q ∧ q.Settled := by
  -- by induction on the steps that lead down from the pool
  induction h.acc_after hroom generalizing actions with
  | intro p _ ih =>
    by_cases hsettled : p.Settled
    · exact ⟨[], p, .refl p, hsettled⟩
    · -- some worker can make a step, whichever it is
      rw [settled_iff] at hsettled
      obtain ⟨i, hi⟩ := not_forall.mp hsettled
      obtain ⟨⟨a, r⟩, hstep⟩ := Option.ne_none_iff_exists'.mp hi
      obtain ⟨rest, q, hrest, hq⟩ := ih r ⟨i, a, hstep⟩ (h.step hroom hstep)
      exact ⟨(i, a) :: rest, q, .head hstep hrest, hq⟩

end Orderly

end Pool

end NonceSweep
