import NonceSweep.Outcome.Accumulator
import Mathlib.Data.List.FinRange

/-!
# The exclusive or of many fingerprints

Fingerprints with `^^^` are a commutative group in which everything is its own inverse, so the exclusive or
of a list of them does not depend on its order. What an accumulator holds is the exclusive or of all that
has been merged into it.

## Main results

- `Fingerprint.xorAll_perm`: the order of the fingerprints does not matter
- `Accumulator.value_merge`: a whole merge, lane after lane, is one exclusive or
-/

namespace NonceSweep

namespace Fingerprint

/-! ## Algebra -/

/-- Fingerprints are equal lane by lane. -/
theorem ext_lanes {f g : Fingerprint} (h : ∀ i : Fin laneCount, f.lanes.get i = g.lanes.get i) : f = g := by
  obtain ⟨a⟩ := f
  obtain ⟨b⟩ := g
  congr 1
  apply Vector.ext
  intro i hi
  exact h ⟨i, hi⟩

@[simp] theorem lanes_xor (f g : Fingerprint) (i : Fin laneCount) :
    (f ^^^ g).lanes.get i = f.lanes.get i ^^^ g.lanes.get i :=
  Vector.getElem_zipWith i.isLt

@[simp] theorem lanes_zero (i : Fin laneCount) : zero.lanes.get i = 0 :=
  Vector.getElem_replicate i.isLt

theorem xor_comm (f g : Fingerprint) : f ^^^ g = g ^^^ f := by
  apply ext_lanes
  intro i
  rw [lanes_xor, lanes_xor, UInt64.xor_comm]

theorem xor_assoc (f g h : Fingerprint) : f ^^^ g ^^^ h = f ^^^ (g ^^^ h) := by
  apply ext_lanes
  intro i
  rw [lanes_xor, lanes_xor, lanes_xor, lanes_xor, UInt64.xor_assoc]

theorem zero_xor (f : Fingerprint) : zero ^^^ f = f := by
  apply ext_lanes
  intro i
  rw [lanes_xor, lanes_zero, UInt64.zero_xor]

theorem xor_zero (f : Fingerprint) : f ^^^ zero = f := by
  rw [xor_comm, zero_xor]

/-! ## Lists -/

/-- The exclusive or of a list of fingerprints. -/
def xorAll (fs : List Fingerprint) : Fingerprint := fs.foldl (· ^^^ ·) zero

theorem xorAll_concat (fs : List Fingerprint) (f : Fingerprint) :
    xorAll (fs ++ [f]) = xorAll fs ^^^ f := by
  rw [xorAll, List.foldl_append]
  rfl

/-- The order in which fingerprints are taken together does not matter. -/
theorem xorAll_perm {fs gs : List Fingerprint} (h : fs.Perm gs) : xorAll fs = xorAll gs := by
  -- two that are taken together one after the other may change places
  apply h.foldl_eq'
  intro f _ g _ acc
  rw [xor_assoc, xor_comm f g, ← xor_assoc]

theorem xorAll_cons (f : Fingerprint) (fs : List Fingerprint) : xorAll (f :: fs) = f ^^^ xorAll fs := by
  rw [xorAll_perm (List.perm_append_singleton f fs).symm, xorAll_concat, xor_comm]

theorem xorAll_append (fs gs : List Fingerprint) : xorAll (fs ++ gs) = xorAll fs ^^^ xorAll gs := by
  induction fs with
  | nil => exact (zero_xor _).symm
  | cons f fs ih => rw [List.cons_append, xorAll_cons, ih, xorAll_cons, xor_assoc]

end Fingerprint

/-! ## Merging -/

namespace Accumulator

/-- One exclusive or changes its own lane and no other. -/
theorem lanes_mergeLane (a : Accumulator) (update : Fingerprint) (i j : Fin laneCount) :
    (a.mergeLane update i).lanes.get j =
      if i = j then a.lanes.get j ^^^ update.lanes.get j else a.lanes.get j := by
  by_cases h : i = j
  · subst h
    rw [if_pos rfl]
    exact Vector.getElem_set_self i.isLt
  · have hne : (i : Nat) ≠ (j : Nat) := fun heq => h (Fin.ext heq)
    rw [if_neg h]
    exact Vector.getElem_set_ne i.isLt j.isLt hne

/-- Lanes that have been merged, in any order, and lanes that have not. -/
theorem lanes_foldl_mergeLane (update : Fingerprint) (order : List (Fin laneCount))
    (hnodup : order.Nodup) (a : Accumulator) (j : Fin laneCount) :
    (order.foldl (·.mergeLane update) a).lanes.get j =
      if j ∈ order then a.lanes.get j ^^^ update.lanes.get j else a.lanes.get j := by
  -- no lane is in the order twice, so what its own turn makes of it is not touched again
  induction order generalizing a with
  | nil => rfl
  | cons first rest ih =>
    obtain ⟨hfirst, hrest⟩ := List.nodup_cons.mp hnodup
    rw [List.foldl_cons, ih hrest, lanes_mergeLane]
    by_cases hj : first = j
    · subst hj
      rw [if_neg hfirst, if_pos rfl, if_pos List.mem_cons_self]
    · have hmem : j ∈ first :: rest ↔ j ∈ rest := by
        rw [List.mem_cons]
        exact ⟨fun h => h.resolve_left fun heq => hj heq.symm, Or.inr⟩
      rw [if_neg hj]
      simp only [hmem]

/-- A merge is an exclusive or. -/
theorem value_merge (a : Accumulator) (update : Fingerprint) :
    (a.merge update).value = a.value ^^^ update := by
  apply Fingerprint.ext_lanes
  intro j
  rw [Fingerprint.lanes_xor]
  have hlane := lanes_foldl_mergeLane update (List.finRange laneCount)
    (List.nodup_finRange laneCount) a j
  rw [if_pos (List.mem_finRange j)] at hlane
  exact hlane

end Accumulator

end NonceSweep
