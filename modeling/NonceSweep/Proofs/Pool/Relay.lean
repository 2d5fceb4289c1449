import NonceSweep.Pool.Relay
import NonceSweep.Proofs.Engine.Bundled
import NonceSweep.Proofs.Pool.Calls
import NonceSweep.Proofs.Pool.InTurn
import NonceSweep.Proofs.Pool.Sound
import Mathlib.Order.MinMax

/-!
# What becomes of the numbers in a relay

The workers of a relay share a dispenser and an accumulator, but each has a bound of its own. A worker that takes
over hashes the numbers from where it finds the dispenser up to its bound. The number that tells it to stop is
taken as well: whoever comes next begins behind it, so it is lost even to a worker with a greater bound. After
the last 64-bit number the dispenser starts again at zero.

## Main results

- `Worker.lawful_run`: what a worker does on its own
- `Relay.relay_lawful`: where the workers of a relay begin, and what each of them does
-/

namespace NonceSweep

variable {b : Backend}

/-! ## Numbers in a row -/

/-- So many numbers, from the first one on. -/
def consecutive (first : UInt64) (count : Nat) : List UInt64 :=
  (List.range count).map fun n => first + UInt64.ofNat n

theorem consecutive_succ (first : UInt64) (count : Nat) :
    consecutive first (count + 1) = first :: consecutive (first + 1) count := by
  simp only [consecutive, List.range_succ_eq_map, List.map_cons, List.map_map]
  congr 1
  · exact UInt64.add_zero first
  · apply List.map_congr_left
    intro n _
    show first + UInt64.ofNat (n + 1) = first + 1 + UInt64.ofNat n
    rw [UInt64.ofNat_add, UInt64.add_assoc, UInt64.add_comm 1]
    rfl

theorem consecutive_concat (first : UInt64) (count : Nat) :
    consecutive first (count + 1) = consecutive first count ++ [first + UInt64.ofNat count] := by
  rw [consecutive, List.range_succ, List.map_append]
  rfl

@[simp] theorem length_consecutive (first : UInt64) (count : Nat) :
    (consecutive first count).length = count := by
  rw [consecutive, List.length_map, List.length_range]

/-- The numbers from the first one on that are below a bound. -/
def between (first bound : UInt64) : List UInt64 := consecutive first (bound.toNat - first.toNat)

/-- Numbers that fit 64 bits do not start again at zero. -/
theorem toNat_add_ofNat {first : UInt64} {n : Nat} (hfits : first.toNat + n < 2 ^ 64) :
    (first + UInt64.ofNat n).toNat = first.toNat + n := by
  rw [UInt64.toNat_add, UInt64.toNat_ofNat', Nat.mod_eq_of_lt (a := n) (by omega), Nat.mod_eq_of_lt hfits]

theorem mem_between {first bound v : UInt64} : v ∈ between first bound ↔ first ≤ v ∧ v < bound := by
  have hfirst := first.toNat_lt
  have hbound := bound.toNat_lt
  rw [UInt64.le_iff_toNat_le, UInt64.lt_iff_toNat_lt, between, consecutive, List.mem_map]
  constructor
  · rintro ⟨n, hn, rfl⟩
    have hlt := List.mem_range.mp hn
    rw [toNat_add_ofNat (by omega)]
    omega
  · rintro ⟨hle, hlt⟩
    refine ⟨v.toNat - first.toNat, List.mem_range.mpr (by omega), ?_⟩
    apply UInt64.toNat_inj.mp
    rw [toNat_add_ofNat (by omega)]
    omega

theorem toNat_max (m n : UInt64) : (max m n).toNat = max m.toNat n.toNat := by
  show (if m ≤ n then n else m).toNat = max m.toNat n.toNat
  split
  case isTrue hle => exact (Nat.max_eq_right (UInt64.le_iff_toNat_le.mp hle)).symm
  case isFalse hgt =>
    have hlt := UInt64.lt_iff_toNat_lt.mp (UInt64.not_le.mp hgt)
    exact (Nat.max_eq_left hlt.le).symm

/-- Only the greatest number is not less than the next. -/
theorem lt_add_one_of_ne_zero {v : UInt64} (h : v + 1 ≠ 0) : v < v + 1 := by
  have hlt := v.toNat_lt
  have hne : (v + 1).toNat ≠ 0 := fun hzero => h (UInt64.toNat_inj.mp hzero)
  rw [UInt64.lt_iff_toNat_lt]
  rw [UInt64.toNat_add, UInt64.toNat_one] at hne ⊢
  omega

/-- Numbers in a row of which the last is the first not below a bound. -/
theorem eq_between_of_consecutive {first bound last : UInt64} {count : Nat} {below : List UInt64}
    (hrow : consecutive first count = below ++ [last]) (hbelow : ∀ v ∈ below, v < bound)
    (hlast : bound ≤ last) : below = between first bound ∧ last = max first bound := by
  have hcount : count = below.length + 1 := by
    have hlength := congrArg List.length hrow
    rw [length_consecutive, List.length_append] at hlength
    exact hlength
  rw [hcount, consecutive_concat] at hrow
  obtain ⟨hbefore, hend⟩ := List.append_inj' hrow rfl
  have hend := List.singleton_inj.mp hend
  have hfirst := first.toNat_lt
  have hbound := bound.toNat_lt
  -- neither fewer nor more numbers are below the bound
  have hlength : below.length = bound.toNat - first.toNat := by
    rcases Nat.lt_trichotomy below.length (bound.toNat - first.toNat) with hless | heq | hmore
    · rw [← hend, UInt64.le_iff_toNat_le, toNat_add_ofNat (by omega)] at hlast
      omega
    · exact heq
    · have hmem : first + UInt64.ofNat (bound.toNat - first.toNat) ∈ below := by
        rw [← hbefore]
        exact List.mem_map_of_mem (List.mem_range.mpr hmore)
      have hlt := UInt64.lt_iff_toNat_lt.mp (hbelow _ hmem)
      rw [toNat_add_ofNat (by omega)] at hlt
      omega
  refine ⟨?_, ?_⟩
  · rw [between, ← hlength, hbefore]
  · apply UInt64.toNat_inj.mp
    rw [← hend, hlength, toNat_add_ofNat (by omega), toNat_max]
    omega

/-! ## The ledger after a list of actions -/

namespace Ledger

theorem next_foldl_record (actions : List Action) (l : Ledger) :
    (actions.foldl .record l).dispenser.next = l.dispenser.next + UInt64.ofNat (claims actions).length := by
  induction actions generalizing l with
  | nil => exact (UInt64.add_zero _).symm
  | cons a rest ih =>
    rw [List.foldl_cons, ih]
    cases hclaimed : a.claimed? with
    | none =>
      rw [next_record_of_none hclaimed, claims, claims, List.filterMap_cons_none hclaimed]
    | some value =>
      rw [next_record_of_some hclaimed, claims, claims, List.filterMap_cons_some hclaimed,
        List.length_cons, UInt64.ofNat_add, UInt64.add_assoc, UInt64.add_comm _ (UInt64.ofNat 1)]
      rfl

theorem value_foldl_record (actions : List Action) (l : Ledger) :
    (actions.foldl .record l).accumulator.value =
      l.accumulator.value ^^^ .xorAll (merges actions) := by
  induction actions generalizing l with
  | nil => exact (Fingerprint.xor_zero _).symm
  | cons a rest ih =>
    have hmerges : merges (a :: rest) = merges [a] ++ merges rest := List.filterMap_append (l := [a])
    rw [List.foldl_cons, ih, value_record, Fingerprint.xor_assoc, ← Fingerprint.xorAll_append, ← hmerges]

end Ledger

/-! ## One worker on its own -/

namespace Worker

/-- The numbers that a worker takes on its own follow on one another. -/
theorem claims_deeds (w : Worker b) (l : Ledger) :
    claims (w.deeds l) = consecutive l.dispenser.next (claims (w.deeds l)).length := by
  induction w, l using run.induct with
  | case1 w l hnone =>
    rw [deeds_of_none hnone]
    rfl
  | case2 w l a w' hstep _ ih =>
    rw [deeds_of_some hstep]
    cases hclaimed : a.claimed? with
    | none =>
      rw [Ledger.next_record_of_none hclaimed] at ih
      rwa [claims, List.filterMap_cons_none hclaimed]
    | some value =>
      rw [Ledger.next_record_of_some hclaimed] at ih
      rw [claims, List.filterMap_cons_some hclaimed, ← claims, List.length_cons, consecutive_succ, ← ih,
        claimed_eq_next hstep hclaimed]

/-- **What a worker does on its own** with the ledger that it finds: it takes all numbers up to its bound and
    one more, hashes those below the bound, and merges what they add to the fingerprint. -/
structure Lawful (task : Task b) (w : Worker b) (l : Ledger) : Prop where
  ended : (w.run l).1.point = .ended
  hashes_eq : (w.run l).1.hashes.toNat = w.bound.toNat - l.dispenser.next.toNat
  claims_eq : claims (w.deeds l) = between l.dispenser.next w.bound ++ [max l.dispenser.next w.bound]
  /-- Each nonce is the low half of its number. -/
  calls_eq : calls (w.deeds l) = w.strategy.calls ((between l.dispenser.next w.bound).map task.input)
  next_eq : (w.run l).2.dispenser.next = max l.dispenser.next w.bound + 1
  value_eq : (w.run l).2.accumulator.value = l.accumulator.value ^^^
    .xorAll ((between l.dispenser.next w.bound).map (task.share w.strategy.commits))

/-- A dispenser is left one past the last number that was taken. -/
theorem next_run {w : Worker b} {l : Ledger} {below : List UInt64} {last : UInt64}
    (hrow : claims (w.deeds l) = below ++ [last]) : (w.run l).2.dispenser.next = last + 1 := by
  have hlength : (claims (w.deeds l)).length = below.length + 1 := by
    rw [hrow, List.length_append, List.length_singleton]
  -- how many numbers there are says which one is the last
  have hlast : below ++ [last] = consecutive l.dispenser.next (below.length + 1) := by
    rw [← hlength, ← claims_deeds, hrow]
  rw [consecutive_concat] at hlast
  rw [ledger_run, Ledger.next_foldl_record, hlength, UInt64.ofNat_add, ← UInt64.add_assoc,
    List.singleton_inj.mp (List.append_inj_right' hlast rfl)]
  rfl

section Lone

variable {task : Task b} (honoured : task.Honoured) {strategy : Strategy} (steady : task.Steady strategy.commits)
  {hasher : b.Hasher} (hholds : task.Holds hasher none) {w : Worker b} {index : Nat} {bound : UInt64}
  (hnew : w = .new index strategy bound hasher task.template (.claiming false)) (l : Ledger)

include honoured steady hholds hnew

/-- A new worker on its own comes to its end, with its books and its calls in order. -/
theorem ended_run :
    (w.run l).1.point = .ended ∧ (w.run l).1.strategy = w.strategy ∧ (w.run l).1.bound = w.bound ∧
      (w.run l).1.Books task (w.deeds l) ∧ (w.run l).1.CallsInOrder (calls (w.deeds l)) := by
  -- each step keeps the frame, the books and the order of the calls, and no call breaks off
  have hrun := run_preserves (w := w)
    (motive := fun u done => (u.strategy = strategy ∧ u.bound = bound) ∧
      u.Books task done ∧ u.CallsInOrder (calls done) ∧ u.point ≠ .failed)
    (fun h hstep =>
      have hframe := step_frame hstep
      ⟨⟨hframe.2.1.trans h.1.1, hframe.2.2.trans h.1.2⟩, h.2.1.step honoured hstep, h.2.2.1.step hstep,
        h.2.1.not_failed (h.1.1 ▸ steady) hstep⟩)
    (by rw [hnew]; exact ⟨⟨rfl, rfl⟩, .new hholds (.inl rfl), .new (.inl rfl), Point.noConfusion⟩) l
  obtain ⟨⟨hstrategy, hbound⟩, hbooks, hcalls, hfine⟩ := hrun
  refine ⟨(w.stopped_run l).resolve_right hfine, ?_, ?_, hbooks, hcalls⟩
  · rw [hstrategy, hnew]
    rfl
  · rw [hbound, hnew]
    rfl

/-- All numbers that it takes but the last are merged. -/
theorem course_run : course w.bound (w.deeds l) =
    ⟨between l.dispenser.next w.bound, [], [], [max l.dispenser.next w.bound]⟩ := by
  obtain ⟨hended, -, hbound, hbooks, -⟩ := ended_run honoured steady hholds hnew l
  have hrest := hbooks.of_ended hended
  have htallies := hbooks.tallies
  rw [hbound] at hrest htallies
  have hclaims := claims_deeds w l
  generalize course w.bound (w.deeds l) = c at hrest htallies
  obtain ⟨merged, handed, inHand, beyond⟩ := c
  obtain ⟨rfl, rfl, hbeyond⟩ := hrest
  obtain ⟨last, rfl⟩ := List.length_eq_one_iff.mp hbeyond
  have hrow : claims (w.deeds l) = merged ++ [last] := by
    rw [htallies.claims, List.append_nil, List.append_nil]
  obtain ⟨rfl, rfl⟩ := eq_between_of_consecutive (hclaims.symm.trans hrow)
    (fun v hv => htallies.below v (by simp [hv])) (htallies.beyond last (List.mem_singleton_self last))
  rfl

/-- A new worker is lawful, if hashers keep their promises. -/
theorem lawful_run : w.Lawful task l := by
  obtain ⟨hended, hstrategy, hbound, hbooks, hcalls⟩ := ended_run honoured steady hholds hnew l
  have hcourse := course_run honoured steady hholds hnew l
  have htallies := hbooks.tallies
  have hhashes := hbooks.hashes
  rw [hbound, hcourse] at htallies hhashes
  rw [hstrategy] at htallies
  have hrow : claims (w.deeds l) = between l.dispenser.next w.bound ++ [max l.dispenser.next w.bound] := by
    rw [htallies.claims, List.append_nil, List.append_nil]
  refine ⟨hended, ?_, hrow, ?_, next_run hrow, ?_⟩
  · have hlt := w.bound.toNat_lt
    rw [hhashes, between, length_consecutive, UInt64.toNat_ofNat', Nat.mod_eq_of_lt (by omega)]
  · rw [hcalls.calls_eq hended, hstrategy, htallies.submissions, List.append_nil]
  · rw [ledger_run, Ledger.value_foldl_record, htallies.merges]

end Lone

end Worker

/-! ## Relays -/

namespace Relay

/-- Where the worker with number `i` takes over, if numbers are counted from `first` on. -/
def takeover (first : UInt64) (bounds : List UInt64) (i : Nat) : UInt64 :=
  (bounds.take i).foldl (fun next bound => max next bound + 1) first

theorem takeover_succ (first : UInt64) {bounds : List UInt64} {i : Nat} {bound : UInt64}
    (hbound : bounds[i]? = some bound) :
    takeover first bounds (i + 1) = max (takeover first bounds i) bound + 1 := by
  rw [takeover, List.take_add_one, hbound, List.foldl_append]
  rfl

/-- As long as numbers do not start again at zero, workers begin behind every number that ended one before. -/
theorem lt_takeover {first : UInt64} {bounds : List UInt64} {i j : Nat} {bound : UInt64}
    (hbound : bounds[i]? = some bound) (hij : i < j) (hj : j ≤ bounds.length)
    (honward : ∀ m, i < m → m ≤ j → takeover first bounds m ≠ 0) :
    max (takeover first bounds i) bound < takeover first bounds j := by
  -- on the worker that begins later: each takes over behind the number that ended the one before it
  induction j, hij using Nat.le_induction with
  | base =>
    have hnext := honward (i + 1) (Nat.lt_succ_self i) (Nat.le_refl _)
    rw [takeover_succ first hbound] at hnext ⊢
    exact lt_add_one_of_ne_zero hnext
  | succ j hle ih =>
    have hbefore := ih (by omega) fun m hm hmj => honward m hm (by omega)
    have hlater : bounds[j]? = some bounds[j] := List.getElem?_eq_getElem (by omega)
    have hnext := honward (j + 1) (by omega) (Nat.le_refl _)
    rw [takeover_succ first hlater] at hnext ⊢
    have hstep := lt_add_one_of_ne_zero hnext
    rw [UInt64.lt_iff_toNat_lt] at hbefore hstep ⊢
    rw [toNat_max] at hstep
    omega

/-- The worker of a relay with this index and bound, when it takes over. -/
def entrant (b : Backend) (shared : b.Shared) (strategy : Strategy) (template : Template) (bound : UInt64)
    (index : Nat) : Worker b :=
  Worker.new index strategy bound (b.hasher shared index) template (.claiming false)

section Run

variable {task : Task b} (honoured : task.Honoured) {strategy : Strategy}
  (steady : task.Steady strategy.commits) {shared : b.Shared}
  (fresh : ∀ index, task.Holds (b.hasher shared index) none)

include honoured steady fresh

theorem lawful_entrant (bound : UInt64) (index : Nat) (l : Ledger) :
    (entrant b shared strategy task.template bound index).Lawful task l :=
  Worker.lawful_run honoured steady (fresh index) rfl l

/-- Each worker takes over what the one before it left, and does what it does on its own. -/
theorem exists_before {bounds : List UInt64} (index : Nat) (ledger : Ledger) {i : Nat}
    {bound : UInt64} (hbound : bounds[i]? = some bound) :
    ∃ before : Ledger,
      (ledger :: (run b shared strategy task.template bounds index ledger).map (·.ledger))[i]? = some before ∧
      before.dispenser.next = takeover ledger.dispenser.next bounds i ∧
      (run b shared strategy task.template bounds index ledger)[i]? =
        some ⟨((entrant b shared strategy task.template bound (index + i)).run before).1,
          ((entrant b shared strategy task.template bound (index + i)).run before).2⟩ := by
  -- along the bounds: the rest of a relay is a relay from the ledger that its first worker leaves
  induction bounds generalizing index ledger i with
  | nil => cases hbound
  | cons first rest ih =>
    cases i with
    | zero =>
      cases hbound
      exact ⟨ledger, rfl, rfl, rfl⟩
    | succ i =>
      have hfirst := lawful_entrant honoured steady fresh first index ledger
      obtain ⟨before, hbefore, hnext, hleg⟩ := ih (index + 1)
        ((entrant b shared strategy task.template first index).run ledger).2 hbound
      refine ⟨before, hbefore, ?_, ?_⟩
      · rw [hnext, hfirst.next_eq]
        rfl
      · rw [← Nat.add_right_comm] at hleg
        exact hleg

/-- **The law of a relay.** Each worker takes over where the one before it has stopped, which is one past the
    greater of its bound and the number at which it took over itself, and is lawful. So the number that ended
    an earlier worker is not taken again before numbers start again at zero, whatever the bound. -/
theorem relay_lawful (bounds : List UInt64) (index : Nat) (ledger : Ledger) :
    (run b shared strategy task.template bounds index ledger).length = bounds.length ∧
    ∀ (i : Nat) (bound : UInt64), bounds[i]? = some bound → ∃ before : Ledger,
      (ledger :: (run b shared strategy task.template bounds index ledger).map (·.ledger))[i]? = some before ∧
      before.dispenser.next = takeover ledger.dispenser.next bounds i ∧
      (run b shared strategy task.template bounds index ledger)[i]? =
        some ⟨((entrant b shared strategy task.template bound (index + i)).run before).1,
          ((entrant b shared strategy task.template bound (index + i)).run before).2⟩ ∧
      (entrant b shared strategy task.template bound (index + i)).Lawful task before ∧
      ∀ (j : Nat) (earlier : UInt64), j < i → bounds[j]? = some earlier →
        (∀ m, j < m → m ≤ i → takeover ledger.dispenser.next bounds m ≠ 0) →
        max (takeover ledger.dispenser.next bounds j) earlier ∉
          claims ((entrant b shared strategy task.template bound (index + i)).deeds before) := by
  constructor
  · induction bounds generalizing index ledger with
    | nil => rfl
    | cons bound rest ih => exact congrArg (· + 1) (ih _ _)
  · intro i bound hbound
    obtain ⟨before, hbefore, hnext, hleg⟩ := exists_before honoured steady fresh index ledger hbound
    have hlawful := lawful_entrant honoured steady fresh bound (index + i) before
    refine ⟨before, hbefore, hnext, hleg, hlawful, ?_⟩
    intro j earlier hji hearlier honward hmem
    have hi : i < bounds.length := (List.getElem?_eq_some_iff.mp hbound).1
    have hlt := UInt64.lt_iff_toNat_lt.mp (lt_takeover hearlier hji hi.le honward)
    -- whatever a worker takes, it takes from where it took over
    have hle : takeover ledger.dispenser.next bounds i ≤ max (takeover ledger.dispenser.next bounds j) earlier := by
      rw [hlawful.claims_eq, hnext, List.mem_append, List.mem_singleton] at hmem
      rcases hmem with hbelow | heq
      · exact (mem_between.mp hbelow).1
      · rw [heq, UInt64.le_iff_toNat_le, toNat_max]
        exact Nat.le_max_left _ _
    exact absurd (UInt64.le_iff_toNat_le.mp hle) (Nat.not_le.mpr hlt)

end Run

/-- A relay of two workers: up to 2, and then up to 5. -/
def twoLegs : List (Leg (.bundled .standard .sequential)) :=
  run (.bundled .standard .sequential) (.allocate .standard) ⟨true, false⟩ .standard [2, 5] 0 (.startingAt 0)

/-- The second of them takes over at 3, so that nobody hashes 2. -/
theorem two_lost_between_legs :
    ∃ (before : Ledger) (leg : Leg (.bundled .standard .sequential)),
      (twoLegs.map (·.ledger))[0]? = some before ∧ twoLegs[1]? = some leg ∧
      before.dispenser.next = 3 ∧ leg.worker.hashes.toNat = 2 ∧ leg.ledger.dispenser.next = 6 ∧
      2 ∉ claims ((entrant (.bundled .standard .sequential) (.allocate .standard) ⟨true, false⟩ .standard 5 1).deeds
        before) := by
  obtain ⟨-, hlegs⟩ := relay_lawful
    (Backend.bundled_honoured .standard .sequential (.allocate .standard) .standard)
    ((Backend.bundled_unbroken .standard .sequential (.allocate .standard) .standard).steady _)
    (fun _ => Engine.Machine.Shows.new (.allocate .standard)) [2, 5] 0 (.startingAt 0)
  obtain ⟨before, hbefore, hnext, hleg, hlawful, hlost⟩ := hlegs 1 5 rfl
  have hthree : before.dispenser.next = 3 := hnext.trans (by decide)
  refine ⟨before, _, List.getElem?_cons_succ.symm.trans hbefore, hleg, hthree, ?_, ?_, ?_⟩
  · rw [hlawful.hashes_eq, hthree]
    rfl
  · rw [hlawful.next_eq, hthree]
    rfl
  · apply hlost 0 2 Nat.zero_lt_one rfl
    intro m hm hle
    obtain rfl : m = 1 := Nat.le_antisymm hle hm
    exact (hnext.symm.trans hthree).trans_ne (by decide)

end Relay

end NonceSweep
