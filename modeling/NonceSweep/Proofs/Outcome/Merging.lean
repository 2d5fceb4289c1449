import NonceSweep.Proofs.Outcome.Exclusive
import Mathlib.Data.List.Dedup
import Mathlib.Logic.Relation

/-!
# Merges that come between one another

A merge is one exclusive or for each lane, and between two of them others may merge lanes of theirs. While
merges go on, an accumulator may therefore hold lanes of different collections of fingerprints. Each lane by
itself holds the exclusive or of the merges that are past it, so once all merges are over the accumulator holds
what it would hold if they had been made one after the other.

## Main results

- `Fingerprint.xorAll_unpaired`: what is merged twice cancels out
- `Merging.Reaches.torn`: each lane at any moment
- `Merging.torn_merges_harmless`: the accumulator at any moment, and when all merges are over
-/

namespace NonceSweep

/-! ## Exclusive ors that cancel out -/

namespace Fingerprint

theorem xor_self (f : Fingerprint) : f ^^^ f = zero := by
  apply ext_lanes
  intro i
  rw [lanes_xor, lanes_zero, UInt64.xor_self]

/-- What a lane comes to depends on this lane of the fingerprints alone. -/
theorem lanes_xorAll (fs : List Fingerprint) (j : Fin laneCount) :
    (xorAll fs).lanes.get j = (fs.map (·.lanes.get j)).foldl (· ^^^ ·) 0 := by
  rw [List.foldl_map, xorAll, ← lanes_zero j]
  symm
  apply List.foldl_hom fun f : Fingerprint => f.lanes.get j
  intro f g
  exact (lanes_xor f g j).symm

/-- The fingerprints that occur an odd number of times, each of them once. -/
def unpaired (fs : List Fingerprint) : List Fingerprint := fs.dedup.filter (fs.count · % 2 = 1)

theorem mem_unpaired {fs : List Fingerprint} {f : Fingerprint} :
    f ∈ unpaired fs ↔ fs.count f % 2 = 1 := by
  rw [unpaired, List.mem_filter, List.mem_dedup, decide_eq_true_iff]
  refine ⟨And.right, fun hodd => ⟨?_, hodd⟩⟩
  apply List.count_pos_iff.mp
  omega

theorem nodup_unpaired (fs : List Fingerprint) : (unpaired fs).Nodup := fs.nodup_dedup.filter _

/-- **What occurs an even number of times cancels out.** -/
theorem xorAll_unpaired (fs : List Fingerprint) : xorAll (unpaired fs) = xorAll fs := by
  induction fs with
  | nil => rfl
  | cons f fs ih =>
    rw [xorAll_cons, ← ih]
    have hnodup := nodup_unpaired fs
    by_cases hf : f ∈ unpaired fs
    · -- one more makes a pair, which cancels out
      have hless : (unpaired (f :: fs)).Perm ((unpaired fs).erase f) := by
        rw [List.perm_ext_iff_of_nodup (nodup_unpaired _) (hnodup.erase f)]
        intro g
        rw [hnodup.mem_erase_iff, mem_unpaired, mem_unpaired]
        rw [mem_unpaired] at hf
        grind
      rw [xorAll_perm hless, xorAll_perm (List.perm_cons_erase hf), xorAll_cons, ← xor_assoc, xor_self,
        zero_xor]
    · have hmore : (unpaired (f :: fs)).Perm (f :: unpaired fs) := by
        rw [List.perm_ext_iff_of_nodup (nodup_unpaired _) (List.nodup_cons.mpr ⟨hf, hnodup⟩)]
        intro g
        rw [List.mem_cons, mem_unpaired, mem_unpaired]
        rw [mem_unpaired] at hf
        grind
      rw [xorAll_perm hmore, xorAll_cons]

end Fingerprint

/-! ## Threads that merge -/

/-- A thread that merges fingerprints one after the other, and each of them lane after lane. -/
structure Merger where
  /-- The fingerprints that are merged. -/
  merged : List Fingerprint
  /-- The fingerprints that are not, of which the first may be merged in part. -/
  ahead : List Fingerprint
  /-- The lane of the first that is to be merged next. -/
  lane : Fin laneCount
deriving DecidableEq

namespace Merger

/-- Nothing is merged yet. -/
def start (updates : List Fingerprint) : Merger := ⟨[], updates, 0⟩

/-- Goes on to the next lane of a fingerprint, or to the next fingerprint. -/
def goOn (m : Merger) (update : Fingerprint) (rest : List Fingerprint) : Merger :=
  if h : m.lane + 1 < laneCount then ⟨m.merged, update :: rest, ⟨m.lane + 1, h⟩⟩
  else ⟨m.merged ++ [update], rest, 0⟩

/-- The fingerprints of which lane `j` is merged. -/
def passed (m : Merger) (j : Fin laneCount) : List Fingerprint :=
  m.merged ++ if j < m.lane then m.ahead.take 1 else []

variable {m : Merger} {update : Fingerprint} {rest : List Fingerprint}

theorem updates_goOn (hahead : m.ahead = update :: rest) :
    (m.goOn update rest).merged ++ (m.goOn update rest).ahead = m.merged ++ m.ahead := by
  rw [hahead, goOn]
  split
  · rfl
  · exact (List.append_cons _ _ _).symm

/-- One exclusive or is past one lane more. -/
theorem passed_goOn (hahead : m.ahead = update :: rest) (j : Fin laneCount) :
    (m.goOn update rest).passed j = m.passed j ++ if m.lane = j then [update] else [] := by
  unfold goOn passed
  rw [hahead]
  split
  case isTrue h =>
    -- the lane at hand is past, and those behind it are not
    rcases lt_trichotomy j m.lane with hbefore | rfl | hbehind
    · have hpast : j < ⟨m.lane + 1, h⟩ := Fin.lt_def.mpr (Nat.lt_succ_of_lt hbefore)
      simp [hbefore, hpast, hbefore.ne']
    · have hpast : m.lane < ⟨m.lane + 1, h⟩ := Fin.lt_def.mpr (Nat.lt_succ_self _)
      simp [hpast]
    · have hahead : ¬ j < ⟨m.lane + 1, h⟩ := by
        rw [Fin.lt_def, not_lt]
        exact hbehind
      simp [hbehind.not_gt, hahead, hbehind.ne]
  case isFalse h =>
    -- the last lane makes the merge complete
    by_cases hlast : m.lane = j
    · subst hlast
      simp
    · have hbefore : j < m.lane := by
        have hne : (m.lane : Nat) ≠ j := fun heq => hlast (Fin.ext heq)
        rw [Fin.lt_def]
        omega
      simp [hbefore, hlast]

end Merger

/-! ## Merges in progress -/

/-- Threads that merge into one accumulator. -/
structure Merging where
  mergers : List Merger
  accumulator : Accumulator

namespace Merging

/-- Each thread has fingerprints to merge, and nothing is merged yet. -/
def start (given : List (List Fingerprint)) : Merging := ⟨given.map .start, .empty⟩

/-- One exclusive or of thread `i`, if there is such a thread and it has not merged all it has to. -/
def step (s : Merging) (i : Nat) : Option Merging :=
  match s.mergers[i]? with
  | none => none
  | some m =>
    match m.ahead with
    | [] => none
    | update :: rest =>
      some ⟨s.mergers.set i (m.goOn update rest), s.accumulator.mergeLane update m.lane⟩

/-- Any number of exclusive ors of any threads, in any order. -/
def Reaches : Merging → Merging → Prop := Relation.ReflTransGen fun s t => ∃ i, s.step i = some t

/-- All merges are over. -/
def Complete (s : Merging) : Prop := ∀ m ∈ s.mergers, m.ahead = []

instance (s : Merging) : Decidable s.Complete :=
  inferInstanceAs (Decidable (∀ m ∈ s.mergers, m.ahead = []))

/-- The fingerprints of which lane `j` is merged. -/
def passed (s : Merging) (j : Fin laneCount) : List Fingerprint := s.mergers.flatMap (·.passed j)

/-- The fingerprints of each thread, merged or not. -/
def updates (s : Merging) : List (List Fingerprint) := s.mergers.map fun m => m.merged ++ m.ahead

variable {given : List (List Fingerprint)} {s t : Merging}

theorem step_eq_some {i : Nat} (h : s.step i = some t) :
    ∃ m update rest, s.mergers[i]? = some m ∧ m.ahead = update :: rest ∧
      t = ⟨s.mergers.set i (m.goOn update rest), s.accumulator.mergeLane update m.lane⟩ := by
  unfold step at h
  split at h
  case h_1 => cases h
  case h_2 m hm =>
    split at h
    case h_1 => cases h
    case h_2 update rest hahead => exact ⟨m, update, rest, hm, hahead, (Option.some.inj h).symm⟩

/-- As long as not all merges are over, some thread can go on. -/
theorem exists_step (h : ¬ s.Complete) : ∃ i t, s.step i = some t := by
  unfold Complete at h
  push Not at h
  obtain ⟨m, hmem, hahead⟩ := h
  obtain ⟨i, hi⟩ := List.getElem?_of_mem hmem
  obtain ⟨update, rest, hahead⟩ := List.exists_cons_of_ne_nil hahead
  exact ⟨i, _, by simp only [step, hi, hahead]; rfl⟩

/-- One element of a list is replaced by one that gives more. -/
theorem flatMap_set_perm {α β : Type} {f : α → List β} {l : List α} {i : Nat} {x y : α} {more : List β}
    (hx : l[i]? = some x) (hmore : f y = f x ++ more) : ((l.set i y).flatMap f).Perm (l.flatMap f ++ more) := by
  induction l generalizing i with
  | nil => cases hx
  | cons first rest ih =>
    cases i with
    | zero =>
      obtain rfl := Option.some.inj hx
      rw [List.set_cons_zero, List.flatMap_cons, List.flatMap_cons, hmore, List.append_assoc,
        List.append_assoc]
      exact List.perm_append_comm.append_left _
    | succ i =>
      rw [List.set_cons_succ, List.flatMap_cons, List.flatMap_cons, List.append_assoc]
      exact (ih hx).append_left _

/-! ## The invariant -/

/-- **An accumulator that may be torn**: each lane holds the exclusive or of the merges that are past it. -/
structure Torn (given : List (List Fingerprint)) (s : Merging) : Prop where
  updates_eq : s.updates = given
  lanes_eq : ∀ j, s.accumulator.lanes.get j = (Fingerprint.xorAll (s.passed j)).lanes.get j

namespace Torn

theorem start (given : List (List Fingerprint)) : (Merging.start given).Torn given := by
  constructor
  · show (given.map Merger.start).map _ = given
    rw [List.map_map]
    exact List.map_id given
  · intro j
    have hnone : (Merging.start given).passed j = [] := by
      simp [Merging.start, passed, Merger.start, Merger.passed]
    rw [hnone]
    rfl

/-- **One exclusive or keeps each lane what it should be.** -/
theorem step (h : s.Torn given) {i : Nat} (hstep : s.step i = some t) : t.Torn given := by
  obtain ⟨m, update, rest, hm, hahead, rfl⟩ := step_eq_some hstep
  constructor
  · obtain ⟨hi, rfl⟩ := List.getElem?_eq_some_iff.mp hm
    rw [← h.updates_eq, updates, List.map_set, Merger.updates_goOn hahead, ← List.map_set,
      List.set_getElem_self]
    rfl
  · intro j
    have hpassed := flatMap_set_perm (f := (·.passed j)) hm (Merger.passed_goOn hahead j)
    show (s.accumulator.mergeLane update m.lane).lanes.get j =
      (Fingerprint.xorAll ((s.mergers.set i _).flatMap fun m => m.passed j)).lanes.get j
    rw [Fingerprint.xorAll_perm hpassed, Accumulator.lanes_mergeLane, h.lanes_eq]
    -- the lane at hand takes the update, and no other lane changes
    by_cases hj : m.lane = j
    · rw [if_pos hj, if_pos hj, Fingerprint.xorAll_concat, Fingerprint.lanes_xor]
      rfl
    · rw [if_neg hj, if_neg hj, List.append_nil]
      rfl

theorem passed_of_complete (h : s.Torn given) (hcomplete : s.Complete) (j : Fin laneCount) :
    s.passed j = given.flatten := by
  rw [← h.updates_eq, updates, ← List.flatMap_def]
  apply List.flatMap_congr
  intro m hm
  rw [Merger.passed, hcomplete m hm, List.take_nil, ite_self]

end Torn

/-- **Along every interleaving each lane is what it should be.** -/
theorem Reaches.torn (h : (Merging.start given).Reaches s) : s.Torn given := by
  induction h with
  | refl => exact Torn.start given
  | tail _ hstep ih =>
    obtain ⟨i, hstep⟩ := hstep
    exact ih.step hstep

/-! ## Merges in full -/

/-- A thread that nobody comes in between merges one fingerprint: four exclusive ors are one merge. -/
theorem reaches_merge (before after : List Merger) (merged rest : List Fingerprint) (update : Fingerprint)
    (accumulator : Accumulator) :
    Reaches ⟨before ++ ⟨merged, update :: rest, 0⟩ :: after, accumulator⟩
      ⟨before ++ ⟨merged ++ [update], rest, 0⟩ :: after, accumulator.merge update⟩ := by
  have hstep (m : Merger) (acc : Accumulator) (hahead : m.ahead = update :: rest) :
      ∃ i, (⟨before ++ m :: after, acc⟩ : Merging).step i =
        some ⟨before ++ m.goOn update rest :: after, acc.mergeLane update m.lane⟩ := by
    refine ⟨before.length, ?_⟩
    simp [step, hahead]
  have hfirst := hstep ⟨merged, update :: rest, 0⟩ accumulator rfl
  have hsecond := hstep ⟨merged, update :: rest, 1⟩ (accumulator.mergeLane update 0) rfl
  have hthird := hstep ⟨merged, update :: rest, 2⟩ ((accumulator.mergeLane update 0).mergeLane update 1) rfl
  have hfourth := hstep ⟨merged, update :: rest, 3⟩
    (((accumulator.mergeLane update 0).mergeLane update 1).mergeLane update 2) rfl
  exact .head hfirst (.head hsecond (.head hthird (.single hfourth)))

/-- Merges that are made in full, one after the other. -/
theorem value_foldl_merge (updates : List Fingerprint) (a : Accumulator) :
    (updates.foldl .merge a).value = updates.foldl (· ^^^ ·) a.value := by
  induction updates generalizing a with
  | nil => rfl
  | cons update rest ih => rw [List.foldl_cons, List.foldl_cons, ih, Accumulator.value_merge]

/-- When all merges are over, the accumulator holds the exclusive or of all fingerprints. -/
theorem Torn.value_of_complete (h : s.Torn given) (hcomplete : s.Complete) :
    s.accumulator.value = .xorAll given.flatten := by
  apply Fingerprint.ext_lanes
  intro j
  rw [← h.passed_of_complete hcomplete j]
  exact h.lanes_eq j

/-- **Torn merges do no harm.** At any moment each lane holds the exclusive or of this lane of the merges that
    are past it. When all merges are over, the accumulator holds the exclusive or of all fingerprints in any
    order, which is that of those that occur an odd number of times, and it is as if they had been merged in
    full one after the other. -/
theorem torn_merges_harmless (given : List (List Fingerprint)) {s : Merging}
    (h : (Merging.start given).Reaches s) :
    s.updates = given ∧
    (∀ j, s.accumulator.lanes.get j = ((s.passed j).map (·.lanes.get j)).foldl (· ^^^ ·) 0) ∧
    (¬ s.Complete → ∃ i t, s.step i = some t) ∧
    (s.Complete →
      (∀ order : List Fingerprint, order.Perm given.flatten →
        s.accumulator.value = order.foldl (· ^^^ ·) .zero ∧
        s.accumulator = order.foldl .merge .empty) ∧
      s.accumulator.value = (Fingerprint.unpaired given.flatten).foldl (· ^^^ ·) .zero) := by
  have htorn := h.torn
  refine ⟨htorn.updates_eq, fun j => ?_, exists_step, fun hcomplete => ?_⟩
  · rw [← Fingerprint.lanes_xorAll]
    exact htorn.lanes_eq j
  · have hvalue := htorn.value_of_complete hcomplete
    refine ⟨fun order hperm => ?_, hvalue.trans (Fingerprint.xorAll_unpaired _).symm⟩
    have horder : s.accumulator.value = order.foldl (· ^^^ ·) .zero :=
      hvalue.trans (Fingerprint.xorAll_perm hperm).symm
    refine ⟨horder, ?_⟩
    have hfull := value_foldl_merge order .empty
    rw [show Accumulator.empty.value = .zero from rfl, ← horder] at hfull
    exact congrArg (Accumulator.mk ·.lanes) hfull.symm

/-- Two threads merge one fingerprint each. In between, the first lane has both of them, the second only the
    later one, and the others have none. -/
theorem two_torn_merges :
    ∃ s t, (Merging.start [[⟨#v[1, 1, 1, 1]⟩], [⟨#v[2, 2, 2, 2]⟩]]).Reaches s ∧
      s.accumulator.lanes = #v[3, 2, 0, 0] ∧ s.Reaches t ∧ t.Complete ∧
      t.accumulator.value = ⟨#v[3, 3, 3, 3]⟩ := by
  have hbefore : ∃ s, (Merging.start [[⟨#v[1, 1, 1, 1]⟩], [⟨#v[2, 2, 2, 2]⟩]]).Reaches s ∧
      s.accumulator.lanes = #v[3, 2, 0, 0] ∧ ∃ t, s.Reaches t ∧ t.Complete :=
    ⟨_, .head ⟨0, rfl⟩ (.head ⟨1, rfl⟩ (.single ⟨1, rfl⟩)), by decide, _,
      .head ⟨0, rfl⟩ (.head ⟨1, rfl⟩ (.head ⟨0, rfl⟩ (.head ⟨1, rfl⟩ (.single ⟨0, rfl⟩)))), by decide⟩
  obtain ⟨s, hs, htorn, t, ht, hcomplete⟩ := hbefore
  obtain ⟨-, -, -, hover⟩ := torn_merges_harmless _ (hs.trans ht)
  refine ⟨s, t, hs, htorn, ht, hcomplete, ((hover hcomplete).1 _ (.refl _)).1.trans ?_⟩
  decide +kernel

end Merging

end NonceSweep
