import NonceSweep.Proofs.Pool.Runs
import Mathlib.Algebra.Order.Ring.Nat
import Mathlib.Data.List.Nodup

/-!
# The numbers that are given out

The dispenser gives out 0, 1, 2, and so on. However the workers race for numbers, the numbers that were taken
so far are the first ones, each of them once, and each was taken by one worker.

The numbers below a bound are `useful` to a worker with that bound; any other ends its loop and is in `excess`.

## Main results

- `Dispensed.step`: one step of a pool, which takes a number or takes none
- `Dispensed.useful_eq`, `Dispensed.taken_eq_add`: how many of the numbers that were taken are below a bound
- `Dispensed.existsUnique_claim`: each number was taken by one worker
-/

namespace NonceSweep

variable {b : Backend}

/-! ## Numbers in ascending order -/

/-- How many numbers were taken. -/
def taken (actions : List (Nat × Action)) : Nat := (claims (everyone actions)).length

/-- The numbers below `count`. -/
def ascending (count : Nat) : List UInt64 := (List.range count).map UInt64.ofNat

theorem ascending_succ (count : Nat) :
    ascending (count + 1) = ascending count ++ [UInt64.ofNat count] := by
  rw [ascending, List.range_succ, List.map_append]
  rfl

@[simp] theorem length_ascending (count : Nat) : (ascending count).length = count := by
  rw [ascending, List.length_map, List.length_range]

/-- Unless numbers have started again at zero, those below a bound come first. -/
theorem filter_ascending {count : Nat} (hcount : count ≤ 2 ^ 64) (bound : UInt64) :
    (ascending count).filter (· < bound) = ascending (min count bound.toNat) := by
  induction count with
  | zero => rw [Nat.zero_min]; rfl
  | succ count ih =>
    rw [ascending_succ, List.filter_append, ih (by omega)]
    have hvalue : (UInt64.ofNat count).toNat = count :=
      UInt64.toNat_ofNat_of_lt' (Nat.lt_of_lt_of_le (Nat.lt_succ_self _) hcount)
    -- the next number is below the bound, or it and all later ones are not
    by_cases hbelow : count < bound.toNat
    · have hlt : UInt64.ofNat count < bound := by
        rw [UInt64.lt_iff_toNat_lt, hvalue]
        exact hbelow
      rw [Nat.min_eq_left (by omega), Nat.min_eq_left (by omega), ascending_succ]
      simp [hlt]
    · have hnot : ¬ UInt64.ofNat count < bound := by
        rw [UInt64.lt_iff_toNat_lt, hvalue]
        exact hbelow
      rw [Nat.min_eq_right (by omega), Nat.min_eq_right (by omega)]
      simp [hnot]

theorem mem_ascending {count : Nat} (hcount : count ≤ 2 ^ 64) {value : UInt64} :
    value ∈ ascending count ↔ value.toNat < count := by
  have hsize : UInt64.size = 2 ^ 64 := rfl
  unfold ascending
  rw [List.mem_map]
  constructor
  · rintro ⟨n, hn, rfl⟩
    have hlt := List.mem_range.mp hn
    rw [UInt64.toNat_ofNat_of_lt' (by omega)]
    exact hlt
  · intro hlt
    exact ⟨value.toNat, List.mem_range.mpr hlt, UInt64.ofNat_toNat⟩

theorem nodup_ascending {count : Nat} (hcount : count ≤ 2 ^ 64) : (ascending count).Nodup := by
  apply List.Nodup.map_on _ List.nodup_range
  intro m hm n hn heq
  have hsize : UInt64.size = 2 ^ 64 := rfl
  have hm := List.mem_range.mp hm
  have hn := List.mem_range.mp hn
  have hvalue := congrArg UInt64.toNat heq
  rw [UInt64.toNat_ofNat_of_lt' (by omega), UInt64.toNat_ofNat_of_lt' (by omega)] at hvalue
  exact hvalue

/-! ## The dispenser -/

theorem Ledger.next_record_of_none {l : Ledger} {a : Action} (h : a.claimed? = none) :
    (l.record a).dispenser.next = l.dispenser.next := by
  cases a with
  | claim value => cases h
  | log _ | call _ | finish _ _ | merge _ | release => rfl

theorem Ledger.next_record_of_some {l : Ledger} {a : Action} {value : UInt64}
    (h : a.claimed? = some value) : (l.record a).dispenser.next = l.dispenser.next + 1 := by
  cases a with
  | claim value => rfl
  | log _ | call _ | finish _ _ | merge _ | release => cases h

/-! ## What the workers did, taken together -/

/-- What actions tell does not depend on how they are interleaved. -/
theorem filterMap_everyone_perm {α : Type} (tell : Action → Option α) {count : Nat}
    {actions : List (Nat × Action)} (hnamed : ∀ step ∈ actions, step.1 < count) :
    ((everyone actions).filterMap tell).Perm
      ((List.range count).flatMap fun i => (own i actions).filterMap tell) := by
  rw [← List.filterMap_flatMap]
  exact (perm_flatMap_own hnamed).filterMap tell

/-- Whatever nobody tells twice is told by one worker, and by no other. -/
theorem existsUnique_own {α : Type} (tell : Action → Option α) {count : Nat}
    {actions : List (Nat × Action)} (hnamed : ∀ step ∈ actions, step.1 < count)
    (hnodup : ((everyone actions).filterMap tell).Nodup) {x : α}
    (hx : x ∈ (everyone actions).filterMap tell) : ∃! i, x ∈ (own i actions).filterMap tell := by
  have hperm := filterMap_everyone_perm tell hnamed
  rw [hperm.nodup_iff, List.nodup_flatMap] at hnodup
  rw [hperm.mem_iff, List.mem_flatMap] at hx
  obtain ⟨i, hi, hmine⟩ := hx
  refine ⟨i, hmine, ?_⟩
  intro j htheirs
  -- a number that there is no worker for has done nothing
  have hj : j < count := by
    by_contra hnone
    rw [own_eq_nil hnamed hnone] at htheirs
    cases htheirs
  by_contra hne
  -- that two workers tell nothing in common is symmetric
  have hsymm : Std.Symm (Function.onFun List.Disjoint fun i => (own i actions).filterMap tell) :=
    ⟨fun _ _ hdisjoint _ hthis hthat => hdisjoint hthat hthis⟩
  exact hnodup.2.forall (List.mem_range.mpr hj) hi hne htheirs hmine

/-! ## Useful and excess numbers -/

/-- The numbers below a bound that were taken, in order. -/
def useful (bound : UInt64) (actions : List Action) : List UInt64 :=
  (claims actions).filter (· < bound)

/-- The numbers not below a bound that were taken, in order. -/
def excess (bound : UInt64) (actions : List Action) : List UInt64 :=
  (claims actions).filter (bound ≤ ·)

theorem useful_concat_of_none (bound : UInt64) (actions : List Action) {a : Action}
    (h : a.claimed? = none) : useful bound (actions ++ [a]) = useful bound actions := by
  simp [useful, claims, h]

theorem excess_concat_of_none (bound : UInt64) (actions : List Action) {a : Action}
    (h : a.claimed? = none) : excess bound (actions ++ [a]) = excess bound actions := by
  simp [excess, claims, h]

theorem useful_concat_claim (bound : UInt64) (actions : List Action) (value : UInt64) :
    useful bound (actions ++ [.claim value]) =
      useful bound actions ++ if value < bound then [value] else [] := by
  rw [useful, claims, List.filterMap_append, List.filter_append]
  by_cases hbelow : value < bound <;> simp [useful, claims, Action.claimed?, hbelow]

theorem excess_concat_claim (bound : UInt64) (actions : List Action) (value : UInt64) :
    excess bound (actions ++ [.claim value]) =
      excess bound actions ++ if value < bound then [] else [value] := by
  rw [excess, claims, List.filterMap_append, List.filter_append]
  by_cases hbelow : value < bound
  · simp [excess, claims, Action.claimed?, hbelow]
  · simp [excess, claims, Action.claimed?, UInt64.not_lt.mp hbelow]

theorem length_useful_add_length_excess (bound : UInt64) (actions : List Action) :
    (useful bound actions).length + (excess bound actions).length = (claims actions).length := by
  have hexcess : excess bound actions = (claims actions).filter fun v => !decide (v < bound) := by
    apply List.filter_congr
    intro v _
    rw [← decide_not]
    exact decide_eq_decide.mpr UInt64.not_lt.symm
  rw [hexcess, useful, List.length_eq_length_filter_add (l := claims actions) (· < bound)]

/-! ## The numbers of a pool -/

namespace Pool

/-- The dispenser of a pool has given out the numbers in ascending order. -/
structure Dispensed (actions : List (Nat × Action)) (p : Pool b) : Prop where
  claims_eq : claims (everyone actions) = ascending (taken actions)
  next_eq : p.ledger.dispenser.next = UInt64.ofNat (taken actions)

namespace Dispensed

variable {bound : UInt64} {count : Nat} {actions : List (Nat × Action)} {p q : Pool b}

/-- **A step takes the next number, or none.** -/
theorem step (h : p.Dispensed actions) {i : Nat} {a : Action} (hstep : p.step i = some (a, q)) :
    q.Dispensed (actions ++ [(i, a)]) ∧ taken actions ≤ taken (actions ++ [(i, a)]) ∧
      taken (actions ++ [(i, a)]) ≤ taken actions + 1 := by
  obtain ⟨w, w', -, hworker, rfl⟩ := step_eq_some hstep
  -- whatever the action is, it adds the number that it takes, if it takes one
  have hclaims : claims (everyone (actions ++ [(i, a)])) =
      ascending (taken actions) ++ a.claimed?.toList := by
    rw [← h.claims_eq, everyone_concat, claims, List.filterMap_append]
    cases hclaimed : a.claimed? <;> simp [hclaimed, claims]
  have htaken : taken (actions ++ [(i, a)]) = taken actions + a.claimed?.toList.length := by
    rw [taken, hclaims, List.length_append, length_ascending]
  cases hclaimed : a.claimed? with
  | none =>
    rw [hclaimed] at hclaims htaken
    refine ⟨⟨?_, ?_⟩, ?_, ?_⟩
    · rw [hclaims, htaken]
      exact List.append_nil _
    · rw [htaken]
      exact (Ledger.next_record_of_none hclaimed).trans h.next_eq
    · exact Nat.le_of_eq htaken.symm
    · exact htaken ▸ Nat.le_succ _
  | some value =>
    rw [hclaimed] at hclaims htaken
    refine ⟨⟨?_, ?_⟩, ?_, ?_⟩
    · rw [hclaims, htaken, Worker.claimed_eq_next hworker hclaimed, h.next_eq]
      exact (ascending_succ _).symm
    · rw [htaken]
      show (p.ledger.record a).dispenser.next = _
      rw [Ledger.next_record_of_some hclaimed, h.next_eq]
      exact (UInt64.ofNat_add _ 1).symm
    · exact htaken ▸ Nat.le_succ _
    · exact Nat.le_of_eq htaken

section Size

variable (h : p.Dispensed actions) (hsize : taken actions ≤ 2 ^ 64)

include h hsize

/-- Those below a bound are the first that were taken. -/
theorem useful_eq (bound : UInt64) :
    useful bound (everyone actions) = ascending (min (taken actions) bound.toNat) := by
  rw [useful, h.claims_eq]
  exact filter_ascending hsize bound

/-- No number is taken twice. -/
theorem nodup_claims : (claims (everyone actions)).Nodup := by
  rw [h.claims_eq]
  exact nodup_ascending hsize

/-- Each of the numbers that were taken was taken by one worker, and by no other. -/
theorem existsUnique_claim (hnamed : ∀ step ∈ actions, step.1 < count) {value : UInt64}
    (hvalue : value.toNat < taken actions) : ∃! i, value ∈ claims (own i actions) := by
  apply existsUnique_own Action.claimed? hnamed (h.nodup_claims hsize)
  show value ∈ claims (everyone actions)
  rw [h.claims_eq, mem_ascending hsize]
  exact hvalue

/-- Every number that was taken either is below the bound, or is an excess number of some worker. -/
theorem taken_eq_add (hnamed : ∀ step ∈ actions, step.1 < count) (bound : UInt64) :
    taken actions = min (taken actions) bound.toNat +
      ((List.range count).map fun i => (excess bound (own i actions)).length).sum := by
  have hall := length_useful_add_length_excess bound (everyone actions)
  rw [h.useful_eq hsize, length_ascending] at hall
  -- excess numbers are counted worker by worker
  have hperm := (filterMap_everyone_perm Action.claimed? hnamed).filter (bound ≤ ·)
  have hlength := hperm.length_eq
  rw [List.filter_flatMap, List.length_flatMap] at hlength
  change (excess bound (everyone actions)).length =
    ((List.range count).map fun i => (excess bound (own i actions)).length).sum at hlength
  rw [hlength] at hall
  exact hall.symm

end Size

end Dispensed

end Pool

end NonceSweep
