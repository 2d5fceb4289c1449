import NonceSweep.Engine.Backend
import NonceSweep.Work.Placement
import Mathlib.Data.Int.CardIntervalMod
import Mathlib.Data.List.Sort
import Mathlib.Data.Nat.Periodic

/-!
# Workers dealt out over processors

A mask deals workers out in ascending order of its processors, and round again. So the number of a worker
alone decides which processor it gets: the one with as many processors of the mask below it as are left over
when this number is divided by the number of processors.

A machine has no list of processors. It counts the bits of the mask, and then clears the lowest bit as often
as there are processors to be passed over. It is done so here with checked differences, and comes to the same
thing: the lowest bit is the first processor, and without it the others are left.

## Main results

- `processors_eq_cons`: the lowest bit of a mask, and what is left without it
- `search_eq`, `choose_eq`: the search of a machine, which breaks off nowhere
- `processors_dealt_in_turn`: which worker gets which processor
-/

namespace NonceSweep

variable {mask bits : UInt64} {c i j : Nat}

/-! ## The processors of a mask -/

theorem mem_processors : c ∈ processors mask ↔ mask.toNat.testBit c = true := by
  simp only [processors, List.mem_filter, List.mem_range, and_iff_right_iff_imp]
  intro hbit
  -- a word has no bit from number 64 on
  by_contra hlarge
  have hword : mask.toNat < 2 ^ c :=
    Nat.lt_of_lt_of_le mask.toNat_lt (Nat.pow_le_pow_right (by decide) (Nat.le_of_not_lt hlarge))
  rw [Nat.testBit_lt_two_pow hword] at hbit
  cases hbit

theorem pairwise_processors (mask : UInt64) : (processors mask).Pairwise (· < ·) :=
  List.pairwise_lt_range.filter _

theorem length_filter_range (p : Nat → Bool) (n : Nat) :
    ((List.range n).filter p).length = Nat.count (fun i => p i) n := by
  induction n with
  | zero => simp
  | succ n ih =>
    rw [List.range_succ, List.filter_append, List.length_append, ih, Nat.count_succ]
    cases hp : p n <;> simp [hp]

theorem cpopNatRec_eq_count (n : Nat) :
    mask.toBitVec.cpopNatRec n 0 = Nat.count (fun i => mask.toNat.testBit i) n := by
  induction n with
  | zero => simp
  | succ n ih =>
    have hbit : mask.toBitVec.getLsbD n = mask.toNat.testBit n := rfl
    rw [BitVec.cpopNatRec_succ, BitVec.cpopNatRec_eq, ih, Nat.count_succ, hbit, Nat.zero_add]
    cases mask.toNat.testBit n <;> rfl

/-- There are as many processors as bits are set. -/
theorem length_processors (mask : UInt64) : (processors mask).length = mask.toBitVec.cpop.toNat := by
  rw [processors, length_filter_range, BitVec.toNat_cpop, cpopNatRec_eq_count]

/-- A processor is listed behind those below it. -/
theorem getElem?_filter_range {p : Nat → Bool} {n : Nat} (hc : c < n) (hp : p c = true) :
    ((List.range n).filter p)[Nat.count (fun i => p i) c]? = some c := by
  induction n with
  | zero => exact absurd hc (Nat.not_lt_zero c)
  | succ n ih =>
    rw [List.range_succ, List.filter_append]
    by_cases hlast : c = n
    · subst hlast
      rw [← length_filter_range, List.getElem?_append_right (Nat.le_refl _)]
      simp [hp]
    · have hbefore := ih (by omega)
      obtain ⟨hlength, -⟩ := List.getElem?_eq_some_iff.mp hbefore
      rw [List.getElem?_append_left hlength, hbefore]

/-- Where in the list a processor stands. -/
theorem getElem?_processors_eq_some :
    (processors mask)[i]? = some c ↔
      mask.toNat.testBit c = true ∧ Nat.count (fun bit => mask.toNat.testBit bit) c = i := by
  constructor
  · intro hi
    have hmem := List.mem_of_getElem? hi
    have hbit := mem_processors.mp hmem
    have hcount := getElem?_filter_range (List.mem_range.mp (List.mem_filter.mp hmem).1) hbit
    -- a processor is listed once
    obtain ⟨hlength, -⟩ := List.getElem?_eq_some_iff.mp hcount
    exact ⟨hbit, (List.getElem?_inj hlength (pairwise_processors mask).nodup).mp (hcount.trans hi.symm)⟩
  · rintro ⟨hbit, rfl⟩
    exact getElem?_filter_range (List.mem_range.mp (List.mem_filter.mp (mem_processors.mpr hbit)).1) hbit

/-! ## The lowest bit -/

/-- A number whose lowest bit has number `low`, and the number before it. -/
theorem exists_eq_two_pow_mul {n low : Nat} (hlow : n.testBit low = true)
    (hbelow : ∀ i < low, n.testBit i = false) :
    ∃ m, n = 2 ^ low * (2 * m + 1) + 0 ∧ n - 1 = 2 ^ low * (2 * m) + (2 ^ low - 1) := by
  have hmod : n % 2 ^ low = 0 := by
    apply Nat.eq_of_testBit_eq
    intro i
    rw [Nat.testBit_mod_two_pow, Nat.zero_testBit]
    by_cases hi : i < low
    · rw [hbelow i hi, Bool.and_false]
    · rw [decide_eq_false hi, Bool.false_and]
  have hodd : n / 2 ^ low % 2 = 1 := by
    rw [Nat.testBit_eq_decide_div_mod_eq] at hlow
    exact of_decide_eq_true hlow
  have hquotient : n / 2 ^ low = 2 * (n / 2 ^ low / 2) + 1 := by omega
  have hn : n = 2 ^ low * (2 * (n / 2 ^ low / 2) + 1) := by
    rw [← hquotient, Nat.mul_div_cancel' (Nat.dvd_of_mod_eq_zero hmod)]
  have hpos : 0 < 2 ^ low := Nat.two_pow_pos low
  -- the sum with zero gives both numbers one form, of which the bits are known
  refine ⟨n / 2 ^ low / 2, hn, ?_⟩
  rw [Nat.mul_add, Nat.mul_one] at hn
  omega

/-- Taking one away from a number and keeping the common bits clears its lowest bit. -/
theorem testBit_and_sub_one {n low : Nat} (hlow : n.testBit low = true)
    (hbelow : ∀ i < low, n.testBit i = false) (c : Nat) :
    (n &&& (n - 1)).testBit c = (n.testBit c && decide (c ≠ low)) := by
  obtain ⟨m, hn, hbefore⟩ := exists_eq_two_pow_mul hlow hbelow
  have hpos : 0 < 2 ^ low := Nat.two_pow_pos low
  rw [Nat.testBit_and]
  rcases Nat.lt_trichotomy c low with hc | rfl | hc
  · rw [hbelow c hc, Bool.false_and, Bool.false_and]
  · rw [hbefore, Nat.testBit_two_pow_mul_add _ (by omega), if_neg (Nat.lt_irrefl c), Nat.sub_self]
    simp
  · -- above the lowest bit, the number and the one before it are alike
    have hrest : (n - 1).testBit c = n.testBit c := by
      obtain ⟨k, rfl⟩ : ∃ k, c = low + (k + 1) := ⟨c - low - 1, by omega⟩
      rw [hbefore, Nat.testBit_two_pow_mul_add _ (by omega), if_neg (by omega), hn,
        Nat.testBit_two_pow_mul_add _ hpos, if_neg (by omega), Nat.add_sub_cancel_left,
        Nat.testBit_succ, Nat.testBit_succ]
      congr 1
      omega
    rw [hrest, Bool.and_self, decide_eq_true (by omega), Bool.and_true]

theorem toBitVec_ne_zero (h : bits ≠ 0) : bits.toBitVec ≠ 0#64 := by
  intro hzero
  exact h (UInt64.toBitVec_inj.mp hzero)

theorem one_le_of_ne_zero (h : bits ≠ 0) : 1 ≤ bits := by
  rw [UInt64.le_iff_toNat_le, UInt64.toNat_one, Nat.one_le_iff_ne_zero]
  intro hzero
  exact h (UInt64.toNat_inj.mp hzero)

theorem testBit_clearLowest (h : bits ≠ 0) (c : Nat) :
    (bits &&& (bits - 1)).toNat.testBit c =
      (bits.toNat.testBit c && decide (c ≠ bits.toBitVec.ctz.toNat)) := by
  rw [UInt64.toNat_and, UInt64.toNat_sub_of_le _ _ (one_le_of_ne_zero h)]
  exact testBit_and_sub_one (BitVec.getLsbD_true_ctz_of_ne_zero (toBitVec_ne_zero h))
    (fun i hi => BitVec.getLsbD_false_of_lt_ctz hi) c

/-- The lowest bit of a mask is its first processor, and the others are those of the mask without it. -/
theorem processors_eq_cons (h : bits ≠ 0) :
    processors bits = bits.toBitVec.ctz.toNat :: processors (bits &&& (bits - 1)) := by
  have hbit : bits.toNat.testBit bits.toBitVec.ctz.toNat = true :=
    BitVec.getLsbD_true_ctz_of_ne_zero (toBitVec_ne_zero h)
  have hsorted : (bits.toBitVec.ctz.toNat :: processors (bits &&& (bits - 1))).Pairwise (· < ·) := by
    refine List.pairwise_cons.mpr ⟨?_, pairwise_processors _⟩
    intro c hc
    rw [mem_processors, testBit_clearLowest h, Bool.and_eq_true, decide_eq_true_eq] at hc
    -- no bit is set below the lowest
    by_contra hle
    have hbelow : bits.toNat.testBit c = false := BitVec.getLsbD_false_of_lt_ctz (by omega)
    rw [hbelow] at hc
    exact absurd hc.1 (by decide)
  apply List.Pairwise.eq_of_mem_iff (pairwise_processors bits) hsorted
  intro c
  rw [List.mem_cons, mem_processors, mem_processors, testBit_clearLowest h, Bool.and_eq_true,
    decide_eq_true_eq]
  by_cases hc : c = bits.toBitVec.ctz.toNat
  · simp [hc, hbit]
  · simp [hc]

/-! ## The search of a machine -/

/-- The difference of two words, which must not lie below zero. -/
def minus (a b : UInt64) : Attempt UInt64 := if b ≤ a then .done (a - b) else .panicked

theorem minus_one_of_ne_zero (h : bits ≠ 0) : minus bits 1 = .done (bits - 1) :=
  if_pos (one_le_of_ne_zero h)

theorem toNat_of_minus {a b d : UInt64} (h : minus a b = .done d) : d.toNat + b.toNat = a.toNat := by
  unfold minus at h
  split at h
  · rename_i hle
    cases h
    rw [UInt64.toNat_sub_of_le _ _ hle]
    exact Nat.sub_add_cancel (UInt64.le_iff_toNat_le.mp hle)
  · cases h

/-- Passes over some processors of a mask, and gives the next. -/
def search (ahead bits : UInt64) : Attempt Nat :=
  if ahead = 0 then .done bits.toBitVec.ctz.toNat
  else
    match _hfewer : minus ahead 1 with
    | .panicked => .panicked
    | .done fewer =>
      match minus bits 1 with
      | .panicked => .panicked
      | .done before => search fewer (bits &&& before)
termination_by ahead.toNat
decreasing_by
  have hless := toNat_of_minus _hfewer
  rw [UInt64.toNat_one] at hless
  omega

/-- The processor of a worker, if the mask has any. -/
def choose (mask worker : UInt64) : Attempt (Option Nat) :=
  let count := UInt64.ofBitVec mask.toBitVec.cpop
  if count = 0 then .done none
  else
    match search (worker % count) mask with
    | .panicked => .panicked
    | .done processor => .done (some processor)

/-- The turn of the search that gives a processor, and the one that passes over one. -/
theorem search_zero (bits : UInt64) : search 0 bits = .done bits.toBitVec.ctz.toNat := by
  rw [search, if_pos rfl]

theorem search_succ {ahead : UInt64} (hahead : ahead ≠ 0) (h : bits ≠ 0) :
    search ahead bits = search (ahead - 1) (bits &&& (bits - 1)) := by
  rw [search, if_neg hahead]
  split
  · rename_i hfewer
    rw [minus_one_of_ne_zero hahead] at hfewer
    cases hfewer
  · rename_i fewer hfewer
    rw [minus_one_of_ne_zero hahead] at hfewer
    cases hfewer
    rw [minus_one_of_ne_zero h]

theorem processors_zero : processors 0 = [] := by decide

/-- The search comes to an end, and finds the processor that stands behind those to be passed over. -/
theorem search_eq {ahead : UInt64} (h : (processors bits)[ahead.toNat]? = some c) :
    search ahead bits = .done c := by
  -- by induction on the processors to be passed over; each turn takes the first away
  induction hn : ahead.toNat generalizing ahead bits with
  | zero =>
    obtain rfl : ahead = 0 := UInt64.toNat_inj.mp hn
    have hbits : bits ≠ 0 := by
      rintro rfl
      simp [processors_zero] at h
    rw [processors_eq_cons hbits] at h
    rw [search_zero]
    exact congrArg Attempt.done (Option.some.inj h)
  | succ n ih =>
    have hahead : ahead ≠ 0 := by
      rintro rfl
      cases hn
    have hbits : bits ≠ 0 := by
      rintro rfl
      simp [processors_zero] at h
    have hfewer : (ahead - 1).toNat = n := by
      rw [UInt64.toNat_sub_of_le _ _ (one_le_of_ne_zero hahead), hn, UInt64.toNat_one, Nat.add_sub_cancel]
    rw [search_succ hahead hbits]
    apply ih _ hfewer
    rw [processors_eq_cons hbits, hn, List.getElem?_cons_succ] at h
    rwa [hfewer]

theorem length_processors_pos (h : mask ≠ 0) : 0 < (processors mask).length := by
  rw [processors_eq_cons h]
  exact Nat.succ_pos _

theorem getElem?_processorOf (h : mask ≠ 0) (worker : Nat) :
    ∃ c, processorOf mask worker = some c := by
  have hlt := Nat.mod_lt worker (length_processors_pos h)
  exact ⟨_, List.getElem?_eq_getElem hlt⟩

/-- A machine finds the processor of each worker. -/
theorem choose_eq (mask worker : UInt64) : choose mask worker = .done (processorOf mask worker.toNat) := by
  have hcount : (UInt64.ofBitVec mask.toBitVec.cpop).toNat = (processors mask).length :=
    (length_processors mask).symm
  unfold choose
  by_cases hmask : mask = 0
  · subst hmask
    rfl
  · have hne : UInt64.ofBitVec mask.toBitVec.cpop ≠ 0 := by
      intro hzero
      rw [hzero] at hcount
      exact absurd hcount (Nat.ne_of_lt (length_processors_pos hmask))
    obtain ⟨c, hc⟩ := getElem?_processorOf hmask worker.toNat
    -- what is left of the number of a worker lies inside the list
    have hsearch : search (worker % UInt64.ofBitVec mask.toBitVec.cpop) mask = .done c := by
      apply search_eq
      rw [UInt64.toNat_mod, hcount]
      exact hc
    simp only [if_neg hne, hsearch, hc]

/-! ## Who gets which processor -/

theorem processorOf_eq_none_iff (worker : Nat) : processorOf mask worker = none ↔ mask = 0 := by
  constructor
  · intro hnone
    by_contra hmask
    obtain ⟨c, hc⟩ := getElem?_processorOf hmask worker
    rw [hnone] at hc
    cases hc
  · rintro rfl
    rfl

theorem processorOf_eq_some_iff (worker : Nat) :
    processorOf mask worker = some c ↔ mask.toNat.testBit c = true ∧
      Nat.count (fun bit => mask.toNat.testBit bit) c = worker % mask.toBitVec.cpop.toNat := by
  rw [processorOf, getElem?_processors_eq_some, length_processors]

/-- Two workers share a processor if they leave the same rest. -/
theorem processorOf_eq_iff (h : mask ≠ 0) (i j : Nat) :
    processorOf mask i = processorOf mask j ↔
      i % mask.toBitVec.cpop.toNat = j % mask.toBitVec.cpop.toNat := by
  constructor
  · intro heq
    obtain ⟨c, hc⟩ := getElem?_processorOf h i
    have hi := (processorOf_eq_some_iff i).mp hc
    have hj := (processorOf_eq_some_iff j).mp (heq ▸ hc)
    exact hi.2.symm.trans hj.2
  · intro hrest
    rw [processorOf, processorOf, length_processors, hrest]

/-- Of consecutive workers, each processor gets one in each round. -/
theorem card_processorOf_eq (hc : mask.toNat.testBit c = true) (first rounds : Nat) :
    ((Finset.Ico first (first + mask.toBitVec.cpop.toNat * rounds)).filter
      fun worker => processorOf mask worker = some c).card = rounds := by
  let count := mask.toBitVec.cpop.toNat
  let rank := Nat.count (fun bit => mask.toNat.testBit bit) c
  have hlisted := getElem?_processors_eq_some.mpr ⟨hc, rfl⟩
  obtain ⟨hrank, -⟩ := List.getElem?_eq_some_iff.mp hlisted
  rw [length_processors] at hrank
  have hworker (worker : Nat) : processorOf mask worker = some c ↔ worker ≡ rank [MOD count] := by
    rw [processorOf_eq_some_iff, and_iff_right hc, Nat.ModEq, Nat.mod_eq_of_lt hrank]
    exact eq_comm
  -- so workers are counted by their rests, and any stretch of this length has as many as the first one
  have hperiodic : Function.Periodic (fun worker => processorOf mask worker = some c) (count * rounds) := by
    intro worker
    simp only [hworker, Nat.ModEq, Nat.add_mul_mod_self_left]
  rw [Nat.filter_Ico_card_eq_of_periodic _ _ _ hperiodic]
  simp only [hworker]
  rw [Nat.count_modEq_card _ (Nat.zero_lt_of_lt hrank), Nat.mul_mod_right, if_neg (Nat.not_lt_zero _),
    Nat.mul_div_cancel_left _ (Nat.zero_lt_of_lt hrank), Nat.add_zero]

/-- **Workers are dealt out in turn.** A machine finds the processor of every worker under every mask, and no
    difference on the way lies below zero. Only the empty mask leaves workers where they are. Under any
    other, a worker gets the processor with as many others of the mask below it as its number leaves when it
    is divided by the number of bits; so two workers share a processor exactly if they leave the same. And
    of consecutive workers, some rounds of them, each processor of the mask gets one in each round. -/
theorem processors_dealt_in_turn (mask : UInt64) :
    (∀ worker, choose mask worker = .done (processorOf mask worker.toNat)) ∧
    (∀ worker, processorOf mask worker = none ↔ mask = 0) ∧
    (mask ≠ 0 → ∀ worker, ∃ c, processorOf mask worker = some c ∧ mask.toNat.testBit c = true ∧
      Nat.count (fun bit => mask.toNat.testBit bit) c = worker % mask.toBitVec.cpop.toNat) ∧
    (mask ≠ 0 → ∀ i j, processorOf mask i = processorOf mask j ↔
      i % mask.toBitVec.cpop.toNat = j % mask.toBitVec.cpop.toNat) ∧
    (∀ c, mask.toNat.testBit c = true → ∀ first rounds,
      ((Finset.Ico first (first + mask.toBitVec.cpop.toNat * rounds)).filter
        fun worker => processorOf mask worker = some c).card = rounds) := by
  refine ⟨choose_eq mask, processorOf_eq_none_iff, ?_, processorOf_eq_iff, fun c => card_processorOf_eq⟩
  intro hmask worker
  obtain ⟨c, hc⟩ := getElem?_processorOf hmask worker
  obtain ⟨hbit, hrank⟩ := (processorOf_eq_some_iff worker).mp hc
  exact ⟨c, hc, hbit, hrank⟩

/-- Three processors, two workers that share the last of them, and two rounds that begin at worker 4. -/
theorem three_processors_for_six_workers :
    let mask : UInt64 := 0x4a
    mask ≠ 0 ∧ mask.toNat.testBit 6 = true ∧ processorOf mask 2 = processorOf mask 5 ∧
    (∃ c, processorOf mask 5 = some c ∧ Nat.count (fun bit => mask.toNat.testBit bit) c = 2) ∧
    ((Finset.Ico 4 10).filter fun worker => processorOf mask worker = some 6).card = 2 := by
  intro mask
  have hmask : mask ≠ 0 := by decide
  have hbit : mask.toNat.testBit 6 = true := by decide
  have hthree : mask.toBitVec.cpop.toNat = 3 := by decide
  obtain ⟨-, -, hrank, hshare, hrounds⟩ := processors_dealt_in_turn mask
  rw [hthree] at hrank hshare hrounds
  obtain ⟨c, hc, -, hcount⟩ := hrank hmask 5
  exact ⟨hmask, hbit, (hshare hmask 2 5).mpr rfl, ⟨c, hc, hcount⟩, hrounds 6 hbit 4 2⟩

end NonceSweep
