import NonceSweep.Proofs.Pool.Runs

/-!
# One worker after the other

To let each worker run to its end before the next begins is one of the ways to interleave them. So there is
a complete schedule for every pool, and what holds of all of them holds of this one.

## Main results

- `Worker.run_preserves`: what every step of a worker preserves holds when it has run to its end
- `Pool.inTurn_isComplete`: the schedule is a complete one
-/

namespace NonceSweep

variable {b : Backend}

namespace Worker

theorem run_of_none {w : Worker b} {l : Ledger} (h : w.step l.dispenser.next = none) :
    w.run l = (w, l) := by
  rw [run.eq_def]
  grind

theorem run_of_some {w w' : Worker b} {l : Ledger} {a : Action}
    (h : w.step l.dispenser.next = some (a, w')) : w.run l = w'.run (l.record a) := by
  rw [run.eq_def]
  grind

/-- All that a worker does on its own, in order. -/
def deeds (w : Worker b) (l : Ledger) : List Action :=
  match h : w.step l.dispenser.next with
  | none => []
  | some (a, w') =>
    have := work_step h
    a :: w'.deeds (l.record a)
termination_by w.point.work (w.left l.dispenser.next)

theorem deeds_of_none {w : Worker b} {l : Ledger} (h : w.step l.dispenser.next = none) : w.deeds l = [] := by
  rw [deeds.eq_def]
  grind

theorem deeds_of_some {w w' : Worker b} {l : Ledger} {a : Action}
    (h : w.step l.dispenser.next = some (a, w')) : w.deeds l = a :: w'.deeds (l.record a) := by
  rw [deeds.eq_def]
  grind

/-- **What every step of a worker preserves** holds when it has run to its end. -/
theorem run_preserves {motive : Worker b → List Action → Prop}
    (hstep : ∀ {w w' next a done}, motive w done → w.step next = some (a, w') → motive w' (done ++ [a]))
    {w : Worker b} (hstart : motive w []) (l : Ledger) : motive (w.run l).1 (w.deeds l) := by
  -- what has been done when the rest of the run begins
  suffices ∀ done, motive w done → motive (w.run l).1 (done ++ w.deeds l) from this [] hstart
  clear hstart
  induction w, l using run.induct with
  | case1 w l hnone =>
    intro done hdone
    rw [run_of_none hnone, deeds_of_none hnone, List.append_nil]
    exact hdone
  | case2 w l a w' hfirst _ ih =>
    intro done hdone
    rw [run_of_some hfirst, deeds_of_some hfirst, List.append_cons]
    exact ih _ (hstep hdone hfirst)

/-- A worker on its own leaves the ledger as its deeds make it. -/
theorem ledger_run (w : Worker b) (l : Ledger) : (w.run l).2 = (w.deeds l).foldl .record l := by
  induction w, l using run.induct with
  | case1 w l hnone =>
    rw [run_of_none hnone, deeds_of_none hnone]
    rfl
  | case2 w l a w' hstep _ ih =>
    rw [run_of_some hstep, deeds_of_some hstep, ih]
    rfl

/-- A worker that runs to its end has stopped. -/
theorem stopped_run (w : Worker b) (l : Ledger) :
    (w.run l).1.point = .ended ∨ (w.run l).1.point = .failed := by
  induction w, l using run.induct with
  | case1 w l hnone =>
    rw [run_of_none hnone]
    exact step_eq_none_iff.mp hnone
  | case2 w l a w' hstep _ ih =>
    rw [run_of_some hstep]
    exact ih

end Worker

namespace Pool

/-- The steps of one worker up to its end are steps of its pool. -/
theorem steps_run (before after : List (Worker b)) (w : Worker b) (l : Ledger) :
    Steps ⟨before ++ w :: after, l⟩ ((w.deeds l).map (before.length, ·))
      ⟨before ++ (w.run l).1 :: after, (w.run l).2⟩ := by
  induction w, l using Worker.run.induct with
  | case1 w l hnone =>
    rw [Worker.run_of_none hnone, Worker.deeds_of_none hnone]
    exact .refl _
  | case2 w l a w' hstep _ ih =>
    rw [Worker.run_of_some hstep, Worker.deeds_of_some hstep]
    -- the worker that runs stands behind those that have stopped
    have hw : (before ++ w :: after)[before.length]? = some w := by simp
    have hfirst := step_of_worker (p := ⟨before ++ w :: after, l⟩) hw hstep
    rw [List.set_append_right _ _ (Nat.le_refl _), Nat.sub_self, List.set_cons_zero] at hfirst
    exact .head hfirst ih

/-- So are those of all workers that are still to run. -/
theorem steps_runAll (before after : List (Worker b)) (l : Ledger) :
    ∃ actions, Steps ⟨before ++ after, l⟩ actions
      ⟨before ++ (runAll after l).1, (runAll after l).2⟩ := by
  induction after generalizing before l with
  | nil => exact ⟨[], .refl _⟩
  | cons w rest ih =>
    have hfirst := steps_run before rest w l
    obtain ⟨later, hrest⟩ := ih (before ++ [(w.run l).1]) (w.run l).2
    rw [← List.append_cons, ← List.append_cons] at hrest
    exact ⟨_, hfirst.trans hrest⟩

theorem stopped_runAll (workers : List (Worker b)) (l : Ledger) :
    ∀ w ∈ (runAll workers l).1, w.point = .ended ∨ w.point = .failed := by
  induction workers generalizing l with
  | nil => exact fun w hmem => absurd hmem List.not_mem_nil
  | cons first rest ih =>
    intro w hmem
    rcases List.mem_cons.mp hmem with rfl | hrest
    · exact first.stopped_run l
    · exact ih (first.run l).2 w hrest

/-- **Workers may take turns.** The schedule in which each worker runs to its end before the next begins is
    one of the interleavings, and it leaves no step undone. -/
theorem inTurn_isComplete : (inTurn : Schedule b).IsComplete := by
  intro p
  constructor
  · exact stopped_runAll p.workers p.ledger
  · exact steps_runAll [] p.workers p.ledger

end Pool

end NonceSweep
