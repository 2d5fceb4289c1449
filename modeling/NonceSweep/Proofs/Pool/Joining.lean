import NonceSweep.Proofs.Pool.Settling

/-!
# Joining the workers of a pool

While the workers of a pool run, they are joined one after the other. To join a worker is to wait until it
has stopped and to take note of how it has; then it is the turn of the next, also after one that has broken
off. So it takes until all workers have stopped to join them all, and by then every worker that has broken
off has been noted, the first of them as the failure.

## Main results

- `Joining.Steps.faithful`: what is noted along every run
- `Joining.Faithful.settled`, `Joining.Faithful.findings_of_done`: when all workers are joined
- `Joining.exists_done`: all workers can be joined in the end
-/

namespace NonceSweep

variable {b : Backend}

/-! ## Findings -/

/-- What has been noted of workers. -/
structure Findings where
  /-- The counts of those that have ended. -/
  counts : List UInt64
  /-- The first one that has broken off. -/
  failure : Option Nat
  log : List Event
deriving DecidableEq

namespace Findings

def none : Findings := ⟨[], .none, []⟩

/-- Takes note of worker `i`, which has stopped. -/
def note (f : Findings) (i : Nat) (w : Worker b) : Findings :=
  if w.point = .failed then
    { f with failure := f.failure.or (some i), log := f.log ++ [.workerPanicked i] }
  else { f with counts := f.counts ++ [w.hashes] }

/-- What there is to be noted of some workers. -/
def of (workers : List (Worker b)) : Findings :=
  let broken := (workers.filter (·.point = .failed)).map (·.index)
  { counts := (workers.filter (·.point ≠ .failed)).map (·.hashes)
    failure := broken.head?
    log := broken.map .workerPanicked }

theorem of_concat (workers : List (Worker b)) (w : Worker b) :
    of (workers ++ [w]) = (of workers).note w.index w := by
  by_cases hfailed : w.point = .failed
  · simp [of, note, hfailed, List.head?_append]
  · simp [of, note, hfailed]

end Findings

/-- Of a pool in which no worker has broken off, all counts are noted. -/
theorem Findings.of_pool_eq {p : Pool b} (h : p.casualties = []) :
    of p.workers = ⟨p.counts, .none, []⟩ := by
  have hwell : ∀ w ∈ p.workers, w.point ≠ .failed :=
    fun w hw hfailed => List.filter_eq_nil_iff.mp (List.map_eq_nil_iff.mp h) w hw (decide_eq_true hfailed)
  have hcounts : p.workers.filter (·.point ≠ .failed) = p.workers :=
    List.filter_eq_self.mpr fun w hw => decide_eq_true (hwell w hw)
  show Findings.mk _ p.casualties.head? (p.casualties.map _) = _
  rw [h, hcounts]
  rfl

/-! ## Numbers of workers -/

namespace Pool

variable {p q : Pool b}

/-- Worker `i` of a pool has number `i`. -/
def Numbered (p : Pool b) : Prop :=
  ∀ (i : Nat) (w : Worker b), p.workers[i]? = some w → w.index = i

theorem Numbered.step (h : p.Numbered) {i : Nat} {a : Action} (hstep : p.step i = some (a, q)) :
    q.Numbered :=
  @workers_step b p q (fun i w _ => w.index = i)
    (fun h hstep => (Worker.step_frame hstep).1.trans h) [] h i a hstep

theorem Orderly.numbered {template : Template} {bound : UInt64} {count : Nat}
    {actions : List (Nat × Action)} (h : p.Orderly template bound count actions) : p.Numbered :=
  fun i w hw => (h.workers i w hw).index_eq

theorem Numbered.map_index (h : p.Numbered) :
    p.workers.map (·.index) = List.range p.workers.length := by
  apply List.ext_getElem
  · simp
  · intro i hi hi'
    simp only [List.getElem_map, List.getElem_range]
    exact h i _ (List.getElem?_eq_getElem (by simpa using hi))

theorem Numbered.casualties_ascending (h : p.Numbered) : p.casualties.Pairwise (· < ·) := by
  have hall : (List.range p.workers.length).Pairwise (· < ·) := List.pairwise_lt_range
  rw [← h.map_index] at hall
  exact hall.sublist (List.filter_sublist.map _)

theorem Numbered.mem_casualties (h : p.Numbered) {i : Nat} :
    i ∈ p.casualties ↔ ∃ w, p.workers[i]? = some w ∧ w.point = .failed := by
  unfold casualties
  rw [List.mem_map]
  constructor
  · rintro ⟨w, hw, rfl⟩
    obtain ⟨hmem, hfailed⟩ := List.mem_filter.mp hw
    obtain ⟨i, hi⟩ := List.getElem?_of_mem hmem
    rw [← h i w hi] at hi
    exact ⟨w, hi, of_decide_eq_true hfailed⟩
  · rintro ⟨w, hw, hfailed⟩
    exact ⟨w, List.mem_filter.mpr ⟨List.mem_of_getElem? hw, decide_eq_true hfailed⟩, h i w hw⟩

end Pool

/-! ## Joining -/

/-- A pool whose workers are being joined. -/
structure Joining (b : Backend) where
  pool : Pool b
  /-- How many workers are joined: these are the first ones. -/
  joined : Nat
  findings : Findings

namespace Joining

/-- No worker is joined yet. -/
def start (p : Pool b) : Joining b := ⟨p, 0, .none⟩

/-- All workers are joined. -/
def Done (j : Joining b) : Prop := j.joined = j.pool.workers.length

/-- Joins the next worker, if there is one and it has stopped. -/
def join (j : Joining b) : Option (Joining b) :=
  match j.pool.workers[j.joined]? with
  | none => none
  | some w =>
    if w.point = .ended ∨ w.point = .failed then
      some { j with joined := j.joined + 1, findings := j.findings.note j.joined w }
    else none

/-- Some steps of workers, listed as those of a pool, and some joins in between. -/
inductive Steps : Joining b → List (Nat × Action) → Joining b → Prop where
  | refl (j : Joining b) : Steps j [] j
  | work {j k : Joining b} {i : Nat} {a : Action} {q : Pool b} {rest : List (Nat × Action)} :
    j.pool.step i = some (a, q) → Steps { j with pool := q } rest k → Steps j ((i, a) :: rest) k
  | join {j k l : Joining b} {rest : List (Nat × Action)} :
    j.join = some k → Steps k rest l → Steps j rest l

variable {j k l : Joining b} {actions rest : List (Nat × Action)}

theorem join_eq_some (h : j.join = some k) :
    ∃ w, j.pool.workers[j.joined]? = some w ∧ (w.point = .ended ∨ w.point = .failed) ∧
      k = { j with joined := j.joined + 1, findings := j.findings.note j.joined w } := by
  unfold join at h
  split at h
  case h_1 => cases h
  case h_2 w hw =>
    split at h
    case isFalse => cases h
    case isTrue hstopped => exact ⟨w, hw, hstopped, (Option.some.inj h).symm⟩

theorem join_of_stopped {w : Worker b} (hw : j.pool.workers[j.joined]? = some w)
    (hstopped : w.point = .ended ∨ w.point = .failed) :
    j.join = some { j with joined := j.joined + 1, findings := j.findings.note j.joined w } := by
  simp only [join, hw, if_pos hstopped]

namespace Steps

theorem trans (h : Steps j actions k) (hrest : Steps k rest l) : Steps j (actions ++ rest) l := by
  induction h with
  | refl => exact hrest
  | work hstep _ ih => exact .work hstep (ih hrest)
  | join hjoin _ ih => exact .join hjoin (ih hrest)

/-- Joining does not get in the way of workers. -/
theorem pool_steps (h : Steps j actions k) : j.pool.Steps actions k.pool := by
  induction h with
  | refl j => exact .refl j.pool
  | work hstep _ ih => exact .head hstep ih
  | join hjoin _ ih =>
    obtain ⟨w, -, -, rfl⟩ := join_eq_some hjoin
    exact ih

theorem of_pool_steps {p q : Pool b} (h : p.Steps actions q) (joined : Nat) (findings : Findings) :
    Steps ⟨p, joined, findings⟩ actions ⟨q, joined, findings⟩ := by
  induction h with
  | refl => exact .refl _
  | head hstep _ ih => exact .work hstep ih

end Steps

/-! ## What is noted -/

/-- **The findings are those of the workers that are joined**, all of which have stopped. -/
structure Faithful (j : Joining b) : Prop where
  numbered : j.pool.Numbered
  joined_le : j.joined ≤ j.pool.workers.length
  stopped : ∀ w ∈ j.pool.workers.take j.joined, w.point = .ended ∨ w.point = .failed
  findings_eq : j.findings = .of (j.pool.workers.take j.joined)

namespace Faithful

theorem start {p : Pool b} (hnumbered : p.Numbered) : (Joining.start p).Faithful :=
  ⟨hnumbered, Nat.zero_le _, fun _ hw => absurd hw List.not_mem_nil, rfl⟩

/-- A worker that makes a step is not joined yet, and so takes nothing away from the findings. -/
theorem work (h : j.Faithful) {i : Nat} {a : Action} {q : Pool b} (hstep : j.pool.step i = some (a, q)) :
    ({ j with pool := q } : Joining b).Faithful := by
  have hnumbered := h.numbered.step hstep
  obtain ⟨w, w', hw, hworker, rfl⟩ := Pool.step_eq_some hstep
  have hlater : j.joined ≤ i := by
    by_contra hjoined
    have hmem : w ∈ j.pool.workers.take j.joined := by
      apply List.mem_of_getElem? (i := i)
      rw [List.getElem?_take_of_lt (Nat.not_le.mp hjoined)]
      exact hw
    rw [Worker.step_eq_none_iff.mpr (h.stopped w hmem)] at hworker
    cases hworker
  have htake : (j.pool.workers.set i w').take j.joined = j.pool.workers.take j.joined :=
    List.take_set_of_le hlater
  refine ⟨hnumbered, ?_, ?_, ?_⟩
  · show j.joined ≤ (j.pool.workers.set i w').length
    rw [List.length_set]
    exact h.joined_le
  · show ∀ u ∈ (j.pool.workers.set i w').take j.joined, _
    rw [htake]
    exact h.stopped
  · show j.findings = .of ((j.pool.workers.set i w').take j.joined)
    rw [htake]
    exact h.findings_eq

theorem join (h : j.Faithful) (hjoin : j.join = some k) : k.Faithful := by
  obtain ⟨w, hw, hstopped, rfl⟩ := join_eq_some hjoin
  have htake : j.pool.workers.take (j.joined + 1) = j.pool.workers.take j.joined ++ [w] := by
    rw [List.take_add_one, hw]
    rfl
  refine ⟨h.numbered, (List.getElem?_eq_some_iff.mp hw).1, ?_, ?_⟩
  · show ∀ u ∈ j.pool.workers.take (j.joined + 1), _
    rw [htake]
    intro u hu
    rcases List.mem_append.mp hu with hold | hnew
    · exact h.stopped u hold
    · rw [List.mem_singleton.mp hnew]
      exact hstopped
  · show j.findings.note j.joined w = .of (j.pool.workers.take (j.joined + 1))
    rw [htake, Findings.of_concat, ← h.findings_eq, h.numbered j.joined w hw]

/-- **It takes until every worker has stopped to join them all.** -/
theorem settled (h : j.Faithful) (hdone : j.Done) : j.pool.Settled := by
  intro w hw
  apply h.stopped w
  rw [hdone, List.take_length]
  exact hw

theorem findings_of_done (h : j.Faithful) (hdone : j.Done) : j.findings = .of j.pool.workers := by
  have hall := h.findings_eq
  rw [hdone, List.take_length] at hall
  exact hall

end Faithful

/-- **Findings are faithful along every run.** -/
theorem Steps.faithful (hsteps : Steps j actions k) (h : j.Faithful) : k.Faithful := by
  induction hsteps with
  | refl => exact h
  | work hstep _ ih => exact ih (h.work hstep)
  | join hjoin _ ih => exact ih (h.join hjoin)

/-- When all workers have stopped, they can be joined. -/
theorem exists_done_of_settled (h : j.Faithful) (hsettled : j.pool.Settled) :
    ∃ k, Steps j [] k ∧ k.Done := by
  -- by induction on the number of workers that are not joined
  induction hleft : j.pool.workers.length - j.joined generalizing j with
  | zero => exact ⟨j, .refl j, Nat.le_antisymm h.joined_le (Nat.sub_eq_zero_iff_le.mp hleft)⟩
  | succ left ih =>
    have hlt : j.joined < j.pool.workers.length := by omega
    have hw : j.pool.workers[j.joined]? = some j.pool.workers[j.joined] := List.getElem?_eq_getElem hlt
    have hjoin := join_of_stopped hw (hsettled _ (List.mem_of_getElem? hw))
    have hfewer : j.pool.workers.length - (j.joined + 1) = left := by omega
    obtain ⟨k, hk, hdone⟩ := ih (h.join hjoin) hsettled hfewer
    exact ⟨k, .join hjoin hk, hdone⟩

/-- **Whatever has been done so far, all workers can be joined in the end.** -/
theorem exists_done {template : Template} {bound : UInt64} {count : Nat}
    (hroom : bound.toNat + count < 2 ^ 64) (h : j.Faithful)
    (horderly : j.pool.Orderly template bound count actions) :
    ∃ rest k, Steps j rest k ∧ k.Done := by
  obtain ⟨rest, q, hsteps, hsettled⟩ := horderly.exists_settled hroom
  have hwork := Steps.of_pool_steps hsteps j.joined j.findings
  obtain ⟨k, hjoins, hdone⟩ := exists_done_of_settled (hwork.faithful h) hsettled
  exact ⟨rest ++ [], k, hwork.trans hjoins, hdone⟩

end Joining

end NonceSweep
