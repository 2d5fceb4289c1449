import NonceSweep.Proofs.Pool.Sound

/-!
# The account of a pool that has settled

When every worker has ended, nothing that was taken below the bound is still open, and every worker has
taken one number more to learn that there are none left. So the numbers that were merged are those below
the bound, each once, however they are spread over the workers.

## Main results

- `Pool.Sound.submissions_perm`, `Pool.Sound.merges_perm`: what was handed in and what was merged
- `Pool.Sound.sum_counts`: how many hashes the workers have counted
-/

namespace NonceSweep

variable {b : Backend}

/-! ## Sums of counts -/

theorem foldl_map_ofNat (counts : List Nat) (first : Nat) :
    (counts.map UInt64.ofNat).foldl (· + ·) (UInt64.ofNat first) =
      UInt64.ofNat (first + counts.sum) := by
  -- the sum so far is generalized, as the fold carries it along
  induction counts generalizing first with
  | nil => rfl
  | cons next rest ih =>
    rw [List.map_cons, List.foldl_cons, ← UInt64.ofNat_add, ih, List.sum_cons, Nat.add_assoc]

/-- Counts that together fit into a word do so one by one. -/
theorem map_toNat_map_ofNat {counts : List Nat} (hfits : counts.sum < 2 ^ 64) :
    (counts.map UInt64.ofNat).map UInt64.toNat = counts := by
  induction counts with
  | nil => rfl
  | cons first rest ih =>
    rw [List.sum_cons] at hfits
    rw [List.map_cons, List.map_cons, ih (by omega)]
    rw [UInt64.toNat_ofNat_of_lt' (show first < UInt64.size by unfold UInt64.size; omega)]

namespace Pool.Sound

variable {task : Task b} {strategy : Strategy} {bound : UInt64} {count : Nat}
  {actions : List (Nat × Action)} {q : Pool b}
  (h : q.Sound task strategy bound count actions)

/-! ## Workers that have ended -/

section Ended

variable (hended : ∀ w ∈ q.workers, w.point = .ended)

include h hended

/-- In the end nothing is open, and every worker has taken one number that is not below the bound. -/
theorem course_of_ended {i : Nat} (hi : i < count) :
    (course bound (own i actions)).handed = [] ∧ (course bound (own i actions)).inHand = [] ∧
      (course bound (own i actions)).beyond.length = 1 := by
  obtain ⟨w, hw, hregular⟩ := h.exists_worker hi
  have hcourse := hregular.books.of_ended (hended w (List.mem_of_getElem? hw))
  rw [hregular.bound_eq] at hcourse
  exact hcourse

/-- The numbers below the bound are what the workers have merged. -/
theorem perm_merged (hroom : bound.toNat + count < 2 ^ 64) (hcount : 0 < count) :
    (ascending bound.toNat).Perm
      ((List.range count).flatMap fun i => (course bound (own i actions)).merged) := by
  have hbelow := h.perm_below hroom
  rw [h.orderly.taken_eq_of_ended hroom hcount hended, Nat.min_eq_right (Nat.le_add_right _ _)] at hbelow
  have hmerged : ∀ i ∈ List.range count, (course bound (own i actions)).below =
      (course bound (own i actions)).merged := by
    intro i hi
    obtain ⟨hhanded, hhand, -⟩ := h.course_of_ended hended (List.mem_range.mp hi)
    rw [Course.below, hhanded, hhand, List.append_nil, List.append_nil]
  rw [List.flatMap_congr hmerged] at hbelow
  exact hbelow

/-- Some worker, for one, has ended. -/
theorem settled_of_ended (hcount : 0 < count) : q.Settled ∧ ∃ w ∈ q.workers, w.point = .ended := by
  obtain ⟨w, hw, -⟩ := h.exists_worker hcount
  have hmem := List.mem_of_getElem? hw
  exact ⟨fun w hw => .inl (hended w hw), w, hmem, hended w hmem⟩

/-- **Each number below the bound is handed in once, and nothing else is.** -/
theorem submissions_perm (hroom : bound.toNat + count < 2 ^ 64) (hcount : 0 < count) :
    (submissions (everyone actions)).Perm ((ascending bound.toNat).map task.input) := by
  obtain ⟨hsettled, hsome⟩ := h.settled_of_ended hended hcount
  exact h.orderly.submissions_perm_of_ended hroom hsettled hsome

/-- No input is handed in twice. -/
theorem submissions_nodup (hfits : bound.toNat ≤ 2 ^ 32) (hroom : bound.toNat + count < 2 ^ 64)
    (hcount : 0 < count) : (submissions (everyone actions)).Nodup :=
  (h.submissions_perm hended hroom hcount).nodup_iff.mpr (task.template.nodup_inputs hfits)

/-- Each number below the bound is handed in by one worker, and by no other. -/
theorem existsUnique_worker (hfits : bound.toNat ≤ 2 ^ 32) (hroom : bound.toNat + count < 2 ^ 64)
    (hcount : 0 < count) {value : UInt64} (hvalue : value < bound) :
    ∃! i, task.input value ∈ submissions (own i actions) := by
  obtain ⟨hsettled, hsome⟩ := h.settled_of_ended hended hcount
  exact h.orderly.existsUnique_worker_of_ended hroom hfits hsettled hsome hvalue

/-- The share of each number below the bound is merged once, and nothing else is. -/
theorem merges_perm (hroom : bound.toNat + count < 2 ^ 64) (hcount : 0 < count) :
    (merges (everyone actions)).Perm ((ascending bound.toNat).map (task.share strategy.commits)) := by
  have heach : ∀ i ∈ List.range count, (own i actions).filterMap Action.merged? =
      (course bound (own i actions)).merged.map (task.share strategy.commits) := by
    intro i hi
    obtain ⟨w, -, hregular⟩ := h.exists_worker (List.mem_range.mp hi)
    have hmerges := hregular.books.tallies.merges
    rw [hregular.strategy_eq, hregular.bound_eq] at hmerges
    exact hmerges
  have hall := filterMap_everyone_perm Action.merged? h.named
  rw [List.flatMap_congr heach, ← List.map_flatMap] at hall
  exact hall.trans ((h.perm_merged hended hroom hcount).map _).symm

omit hended in
/-- Each worker has counted its merges. -/
theorem counts_eq :
    q.counts =
      ((List.range count).map fun i => (course bound (own i actions)).merged.length).map
        UInt64.ofNat := by
  apply List.ext_getElem
  · simp [counts, h.length_eq]
  · intro i hi hi'
    have hlt : i < q.workers.length := by simpa [counts] using hi
    have hregular := h.workers i _ (List.getElem?_eq_getElem hlt)
    have hhashes := hregular.books.hashes
    rw [hregular.bound_eq] at hhashes
    simp only [counts, List.getElem_map, List.getElem_range]
    exact hhashes

/-- The counts add up to the bound without overflow. -/
theorem sum_counts (hroom : bound.toNat + count < 2 ^ 64) (hcount : 0 < count) :
    (q.counts.map UInt64.toNat).sum = bound.toNat ∧ q.total = bound := by
  have htotal :
      ((List.range count).map fun i => (course bound (own i actions)).merged.length).sum =
        bound.toNat := by
    have hlength := (h.perm_merged hended hroom hcount).length_eq
    rw [length_ascending, List.length_flatMap] at hlength
    exact hlength.symm
  constructor
  · rw [h.counts_eq, map_toNat_map_ofNat (by omega)]
    exact htotal
  · have hsum := foldl_map_ofNat
      ((List.range count).map fun i => (course bound (own i actions)).merged.length) 0
    rw [htotal, Nat.zero_add, UInt64.ofNat_toNat] at hsum
    rw [total, h.counts_eq]
    exact hsum

end Ended

end Pool.Sound

end NonceSweep
