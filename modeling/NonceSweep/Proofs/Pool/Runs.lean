import NonceSweep.Pool.Interleaving
import NonceSweep.Proofs.Pool.Task
import Mathlib.Data.List.Perm.Basic
import Mathlib.Data.List.Range
import Mathlib.Data.List.Nodup

/-!
# Runs of a pool

An interleaving is a list of actions, each with the number of its worker. The actions of one worker are
read off it by `own`; taken together again, worker by worker, they are all actions in another order.

## Main results

- `Pool.Steps.induction`: what every step preserves holds after every run
- `perm_flatMap_own`: a run is made of what its workers did
- `Pool.settled_iff`: a pool has settled when no worker can make a step
-/

namespace NonceSweep

/-! ## The actions of each worker -/

/-- What all workers did, in order. -/
def everyone (actions : List (Nat × Action)) : List Action := actions.map (·.2)

/-- What worker `i` did, in order. -/
def own (i : Nat) (actions : List (Nat × Action)) : List Action :=
  everyone (actions.filter (·.1 = i))

@[simp] theorem own_nil (i : Nat) : own i [] = [] := rfl

theorem everyone_concat (actions : List (Nat × Action)) (i : Nat) (a : Action) :
    everyone (actions ++ [(i, a)]) = everyone actions ++ [a] := by
  rw [everyone, List.map_append]
  rfl

theorem own_concat_self (actions : List (Nat × Action)) (i : Nat) (a : Action) :
    own i (actions ++ [(i, a)]) = own i actions ++ [a] := by
  simp [own, everyone]

theorem own_concat_of_ne {i j : Nat} (hne : i ≠ j) (actions : List (Nat × Action)) (a : Action) :
    own j (actions ++ [(i, a)]) = own j actions := by
  simp [own, everyone, hne]

theorem own_cons (i j : Nat) (a : Action) (rest : List (Nat × Action)) :
    own j ((i, a) :: rest) = (if i = j then [a] else []) ++ own j rest := by
  by_cases h : i = j
  · simp [own, everyone, h]
  · simp [own, everyone, h]

/-- Nobody but a worker does anything. -/
theorem own_eq_nil {count i : Nat} {actions : List (Nat × Action)}
    (hnamed : ∀ step ∈ actions, step.1 < count) (hi : ¬ i < count) : own i actions = [] := by
  have hnone : actions.filter (·.1 = i) = [] := by
    rw [List.filter_eq_nil_iff]
    intro step hmem hstep
    rw [decide_eq_true_iff] at hstep
    exact hi (hstep ▸ hnamed step hmem)
  rw [own, hnone]
  rfl

/-- One worker of many did something: it is done once. -/
theorem flatMap_if_eq {count i : Nat} (hi : i < count) (a : Action) :
    (List.range count).flatMap (fun j => if i = j then [a] else []) = [a] := by
  induction count with
  | zero => exact absurd hi (Nat.not_lt_zero i)
  | succ count ih =>
    rw [List.range_succ, List.flatMap_append, List.flatMap_singleton]
    rcases Nat.lt_succ_iff_lt_or_eq.mp hi with hlt | heq
    · rw [ih hlt, if_neg (Nat.ne_of_lt hlt), List.append_nil]
    · have hnone : (List.range count).flatMap (fun j => if i = j then [a] else []) = [] := by
        rw [List.flatMap_eq_nil_iff]
        intro j hj
        rw [if_neg]
        intro hij
        have hlt := List.mem_range.mp hj
        omega
      rw [hnone, if_pos heq, List.nil_append]

/-- A run is made of what its workers did. -/
theorem perm_flatMap_own {count : Nat} {actions : List (Nat × Action)}
    (hnamed : ∀ step ∈ actions, step.1 < count) :
    (everyone actions).Perm ((List.range count).flatMap fun i => own i actions) := by
  -- by induction from the first action on, which goes to the front of what its worker did
  induction actions with
  | nil =>
    rw [show ((List.range count).flatMap fun i => own i []) = [] by simp]
    exact List.Perm.refl []
  | cons step rest ih =>
    obtain ⟨i, a⟩ := step
    have hi : i < count := hnamed (i, a) List.mem_cons_self
    have hrest := ih fun step hstep => hnamed step (List.mem_cons_of_mem _ hstep)
    have hsplit : ((List.range count).flatMap fun j => own j ((i, a) :: rest)).Perm
        ((List.range count).flatMap (fun j => if i = j then [a] else []) ++
          (List.range count).flatMap fun j => own j rest) := by
      simp only [own_cons]
      exact (List.flatMap_append_perm _ _ _).symm
    rw [flatMap_if_eq hi] at hsplit
    exact (hrest.cons a).trans hsplit.symm

variable {b : Backend}

/-! ## Steps of a worker -/

namespace Worker

/-- A worker that has not stopped can always make a step: none waits for another. -/
theorem step_eq_none_iff {w : Worker b} {next : UInt64} :
    w.step next = none ↔ w.point = .ended ∨ w.point = .failed := by
  unfold step
  cases hpoint : w.point <;> simp

/-- A worker takes the number that the dispenser hands out next, and no other. -/
theorem claimed_eq_next {w w' : Worker b} {next value : UInt64} {a : Action}
    (h : w.step next = some (a, w')) (ha : a.claimed? = some value) : value = next := by
  cases move_of_step h with
  | claim hpoint => exact (Option.some.inj ha).symm
  | bind | submit | drain | finish | merge | leave | release => cases ha

end Worker

namespace Pool

variable {p q r : Pool b}

/-! ## Steps -/

/-- A step of a pool is a step of one of its workers. -/
theorem step_eq_some {i : Nat} {a : Action} (h : p.step i = some (a, q)) :
    ∃ w w', p.workers[i]? = some w ∧ w.step p.ledger.dispenser.next = some (a, w') ∧
      q = ⟨p.workers.set i w', p.ledger.record a⟩ := by
  unfold step at h
  split at h
  case h_1 => cases h
  case h_2 w hw =>
    split at h
    case h_1 => cases h
    case h_2 a' w' hstep =>
      cases h
      exact ⟨w, w', hw, hstep, rfl⟩

theorem step_of_worker {i : Nat} {w w' : Worker b} {a : Action} (hw : p.workers[i]? = some w)
    (hstep : w.step p.ledger.dispenser.next = some (a, w')) :
    p.step i = some (a, ⟨p.workers.set i w', p.ledger.record a⟩) := by
  simp only [step, hw, hstep]

/-- No worker waits for another. -/
theorem exists_step {i : Nat} {w : Worker b} (hw : p.workers[i]? = some w)
    (hgoing : ¬ (w.point = .ended ∨ w.point = .failed)) : ∃ a q, p.step i = some (a, q) := by
  cases hstep : w.step p.ledger.dispenser.next with
  | none => exact absurd (Worker.step_eq_none_iff.mp hstep) hgoing
  | some result => exact ⟨result.1, _, step_of_worker hw hstep⟩

/-- What each worker keeps to, step by step, all workers of a pool keep to: one goes on, and the others stay
    what they are. -/
theorem workers_step {motive : Nat → Worker b → List Action → Prop}
    (hkeeps : ∀ {j w w' next a done}, motive j w done → w.step next = some (a, w') →
      motive j w' (done ++ [a]))
    {actions : List (Nat × Action)}
    (h : ∀ (j : Nat) (w : Worker b), p.workers[j]? = some w → motive j w (own j actions))
    {i : Nat} {a : Action} (hstep : p.step i = some (a, q)) :
    ∀ (j : Nat) (w : Worker b), q.workers[j]? = some w → motive j w (own j (actions ++ [(i, a)])) := by
  obtain ⟨w, w', hw, hworker, rfl⟩ := step_eq_some hstep
  intro j u hu
  by_cases hij : i = j
  · subst hij
    change (p.workers.set i w')[i]? = some u at hu
    rw [List.getElem?_set_self (List.getElem?_eq_some_iff.mp hw).1] at hu
    cases hu
    rw [own_concat_self]
    exact hkeeps (h i w hw) hworker
  · change (p.workers.set i w')[j]? = some u at hu
    rw [List.getElem?_set_ne hij] at hu
    rw [own_concat_of_ne hij]
    exact h j u hu

theorem Steps.trans {actions rest : List (Nat × Action)} (h : Steps p actions q)
    (hrest : Steps q rest r) : Steps p (actions ++ rest) r := by
  induction h with
  | refl => exact hrest
  | head hstep _ ih => exact .head hstep (ih hrest)

/-- **Induction along a run.** What holds at the start, and is preserved by every step, holds at the end
    of every run. -/
theorem Steps.induction {motive : List (Nat × Action) → Pool b → Prop} (hstart : motive [] p)
    (hstep : ∀ {done q i a r}, motive done q → q.step i = some (a, r) → motive (done ++ [(i, a)]) r)
    {actions : List (Nat × Action)} (h : Steps p actions r) : motive actions r := by
  -- what has been done when the rest of the run begins
  suffices ∀ {q rest r}, Steps q rest r → ∀ done, motive done q → motive (done ++ rest) r from
    this h [] hstart
  intro q rest r hrun
  induction hrun with
  | refl q =>
    intro done hdone
    rw [List.append_nil]
    exact hdone
  | head hfirst _ ih =>
    intro done hdone
    rw [List.append_cons]
    exact ih _ (hstep hdone hfirst)

/-- A pool has settled when no worker can make a step. -/
theorem settled_iff : p.Settled ↔ ∀ i, p.step i = none := by
  constructor
  · intro hsettled i
    cases hstep : p.step i with
    | none => rfl
    | some result =>
      obtain ⟨a, q⟩ := result
      obtain ⟨w, w', hw, hworker, -⟩ := step_eq_some hstep
      rw [Worker.step_eq_none_iff.mpr (hsettled w (List.mem_of_getElem? hw))] at hworker
      cases hworker
  · intro hnone w hw
    obtain ⟨i, hi⟩ := List.getElem?_of_mem hw
    by_contra hgoing
    obtain ⟨a, q, hstep⟩ := exists_step hi hgoing
    rw [hnone i] at hstep
    cases hstep

end Pool

end NonceSweep
