import NonceSweep.Decimal.Layout
import NonceSweep.Proofs.Decimal.Rounding
import NonceSweep.Proofs.Text.Numeral
import Mathlib.Data.List.TakeWhile

/-!
# Decimals, read as numbers

What a layout writes for a decimal stands for the number of this decimal, whether it is written with an exponent
or without: the zeros at its end that are left out, and those that are put in around the point, are made good by
the places behind the point and by the exponent. So what is written for a double is a number that rounds to it,
and the double is known from what is written.

## Main results

- `number?`: the number that a text stands for
- `number?_write`: a decimal is read back
- `render_eq_iff`: what is written for two values tells whether they are the same double
-/

namespace NonceSweep.Decimal

open Text.Numeral (valueOf?)

/-! ## Numbers as text -/

/-- The exponent behind a mantissa, with its sign; none stands for zero. -/
def exponent? : List Char → Option Int
  | [] => some 0
  | 'e' :: '-' :: digits => (valueOf? 10 digits).map fun (n : Nat) => -(n : Int)
  | 'e' :: '+' :: digits => (valueOf? 10 digits).map fun (n : Nat) => (n : Int)
  | _ => none

/-- The number that a text stands for: digits with a point among them or without, and an exponent. -/
def number? (text : List Char) : Option ℚ := do
  let mantissa := text.takeWhile (· ≠ 'e')
  let places := (mantissa.dropWhile (· ≠ '.')).tail
  let digits ← valueOf? 10 (mantissa.takeWhile (· ≠ '.') ++ places)
  let exponent ← exponent? (text.dropWhile (· ≠ 'e'))
  return digits * 10 ^ (exponent - places.length)

/-- The decimal digits. -/
def IsDigit (c : Char) : Prop := ∃ d < 10, c = Nat.digitChar d

theorem IsDigit.ne {c : Char} (h : IsDigit c) : c ≠ '.' ∧ c ≠ 'e' := by
  have hcheck : ∀ d < 10, Nat.digitChar d ≠ '.' ∧ Nat.digitChar d ≠ 'e' := by decide
  obtain ⟨d, hd, rfl⟩ := h
  exact hcheck d hd

theorem isDigit_zero : IsDigit '0' := ⟨0, by decide, rfl⟩

variable {whole places digits behind : List Char}

theorem takeWhile_of_all {mark : Char} {front : List Char} (hfront : ∀ c ∈ front, c ≠ mark)
    (rest : List Char) : (front ++ mark :: rest).takeWhile (· ≠ mark) = front ∧
      (front ++ mark :: rest).dropWhile (· ≠ mark) = mark :: rest := by
  have hall : ∀ c ∈ front, decide (c ≠ mark) = true := fun c hc => decide_eq_true (hfront c hc)
  rw [List.takeWhile_append_of_pos hall, List.dropWhile_append_of_pos hall]
  simp

theorem takeWhile_of_none {mark : Char} {front : List Char} (hfront : ∀ c ∈ front, c ≠ mark) :
    front.takeWhile (· ≠ mark) = front ∧ front.dropWhile (· ≠ mark) = [] := by
  have hall : ∀ c ∈ front, decide (c ≠ mark) = true := fun c hc => decide_eq_true (hfront c hc)
  exact ⟨List.takeWhile_eq_self_iff.mpr hall, List.dropWhile_eq_nil_iff.mpr hall⟩

/-- What a text stands for whose mantissa has been told from its exponent. -/
theorem number?_of_split {text mantissa : List Char} {n : Nat} {e : Int}
    (hmantissa : text.takeWhile (· ≠ 'e') = mantissa) (hbehind : text.dropWhile (· ≠ 'e') = behind)
    (hwhole : mantissa.takeWhile (· ≠ '.') = whole) (hplaces : (mantissa.dropWhile (· ≠ '.')).tail = places)
    (hn : valueOf? 10 (whole ++ places) = some n) (he : exponent? behind = some e) :
    number? text = some ((n : ℚ) * 10 ^ (e - places.length)) := by
  simp only [number?, hmantissa, hbehind, hwhole, hplaces, hn, he]
  rfl

/-- There is no exponent among digits with a point. -/
theorem ne_of_mem_point (hwhole : ∀ c ∈ whole, IsDigit c) (hplaces : ∀ c ∈ places, IsDigit c) :
    ∀ c ∈ whole ++ '.' :: places, c ≠ 'e' := by
  intro c hc
  rcases List.mem_append.mp hc with hc | hc
  · exact (hwhole c hc).ne.2
  · rcases List.mem_cons.mp hc with rfl | hc
    · decide
    · exact (hplaces c hc).ne.2

theorem number?_of_point {n : Nat} (hwhole : ∀ c ∈ whole, IsDigit c) (hplaces : ∀ c ∈ places, IsDigit c)
    (hn : valueOf? 10 (whole ++ places) = some n) :
    number? (whole ++ '.' :: places) = some ((n : ℚ) * 10 ^ (-(places.length : Int))) := by
  obtain ⟨hmantissa, hbehind⟩ := takeWhile_of_none (ne_of_mem_point hwhole hplaces)
  obtain ⟨hfront, hback⟩ := takeWhile_of_all (fun c hc => (hwhole c hc).ne.1) places
  have hnumber := number?_of_split hmantissa hbehind hfront (congrArg List.tail hback) hn rfl
  rwa [zero_sub] at hnumber

/-- With an exponent, a point may be missing. -/
theorem number?_of_exponent (whole places : List Char) {mantissa behind : List Char} {n : Nat} {e : Int}
    (hmantissa : mantissa = whole ∧ places = [] ∨ mantissa = whole ++ '.' :: places)
    (hwhole : ∀ c ∈ whole, IsDigit c) (hplaces : ∀ c ∈ places, IsDigit c)
    (hn : valueOf? 10 (whole ++ places) = some n) (he : exponent? ('e' :: behind) = some e) :
    number? (mantissa ++ 'e' :: behind) = some ((n : ℚ) * 10 ^ (e - places.length)) := by
  have hpoint : mantissa.takeWhile (· ≠ '.') = whole ∧ (mantissa.dropWhile (· ≠ '.')).tail = places := by
    rcases hmantissa with ⟨rfl, rfl⟩ | rfl
    · obtain ⟨hfront, hback⟩ := takeWhile_of_none fun c hc => (hwhole c hc).ne.1
      exact ⟨hfront, by rw [hback]; rfl⟩
    · obtain ⟨hfront, hback⟩ := takeWhile_of_all (fun c hc => (hwhole c hc).ne.1) places
      exact ⟨hfront, by rw [hback]; rfl⟩
  have hno : ∀ c ∈ mantissa, c ≠ 'e' := by
    intro c hc
    rcases hmantissa with ⟨rfl, -⟩ | rfl
    · exact (hwhole c hc).ne.2
    · exact ne_of_mem_point hwhole hplaces c hc
  obtain ⟨htake, hdrop⟩ := takeWhile_of_all hno behind
  exact number?_of_split htake hdrop hpoint.1 hpoint.2 hn he

/-! ## Zeros around digits -/

theorem valueOf?_numeral (n : Nat) : valueOf? 10 (Nat.toDigits 10 n) = some n :=
  Text.Numeral.valueOf?_toDigits (by decide) (by decide) n

theorem valueOf?_zeros (count : Nat) : valueOf? 10 (List.replicate count '0') = some 0 := by
  induction count with
  | zero => rfl
  | succ count ih =>
    rw [List.replicate_succ, valueOf?, ih]
    simp [Text.Numeral.digit?, Text.Numeral.digitValue?, Option.filter]

theorem valueOf?_zeros_append {n : Nat} (count : Nat) (hn : valueOf? 10 digits = some n) :
    valueOf? 10 (List.replicate count '0' ++ digits) = some n := by
  rw [Text.Numeral.valueOf?_append, valueOf?_zeros, hn]
  simp

theorem valueOf?_append_zeros {n : Nat} (count : Nat) (hn : valueOf? 10 digits = some n) :
    valueOf? 10 (digits ++ List.replicate count '0') = some (n * 10 ^ count) := by
  rw [Text.Numeral.valueOf?_append, valueOf?_zeros, hn]
  simp

theorem isDigit_of_mem_zeros (count : Nat) : ∀ c ∈ List.replicate count '0', IsDigit c := by
  intro c hc
  rw [List.eq_of_mem_replicate hc]
  exact isDigit_zero

theorem isDigit_of_mem_padded (hdigits : ∀ c ∈ digits, IsDigit c) (count : Nat) :
    ∀ c ∈ digits ++ List.replicate count '0', IsDigit c :=
  List.forall_mem_append.mpr ⟨hdigits, isDigit_of_mem_zeros count⟩

namespace Layout

/-- The digits that count, and how many zeros at the end are left out. -/
theorem exists_significant (coefficient : Nat) :
    ∃ zeros, Nat.toDigits 10 coefficient = significant coefficient ++ List.replicate zeros '0' := by
  let turned := (Nat.toDigits 10 coefficient).reverse
  have hzeros : turned.takeWhile (· == '0') =
      List.replicate (turned.takeWhile (· == '0')).length '0' := by
    rw [List.eq_replicate_iff]
    refine ⟨rfl, fun c hc => ?_⟩
    simpa using List.mem_takeWhile_imp hc
  refine ⟨(turned.takeWhile (· == '0')).length, ?_⟩
  have hsplit : turned.takeWhile (· == '0') ++ turned.dropWhile (· == '0') = turned :=
    List.takeWhile_append_dropWhile
  have hback := congrArg List.reverse hsplit
  rw [List.reverse_append, hzeros, List.reverse_replicate] at hback
  exact ((List.reverse_reverse _).symm.trans hback.symm).trans rfl

theorem isDigit_of_mem_significant {coefficient : Nat} {c : Char} (hc : c ∈ significant coefficient) :
    IsDigit c := by
  obtain ⟨zeros, hzeros⟩ := exists_significant coefficient
  apply Text.Numeral.mem_toDigits (by decide)
  rw [hzeros]
  exact List.mem_append_left _ hc

/-- The value of a decimal from the digits that count and the exponent of the first of them. -/
theorem exists_value (s : Scientific) : ∃ n, valueOf? 10 (significant s.coefficient) = some n ∧
    s.value = n * 10 ^ (s.exponent + (Nat.toDigits 10 s.coefficient).length - 1 + 1 -
      ((significant s.coefficient).length : Int)) := by
  obtain ⟨zeros, hzeros⟩ := exists_significant s.coefficient
  have hall := valueOf?_numeral s.coefficient
  rw [hzeros, Text.Numeral.valueOf?_append] at hall
  obtain ⟨n, hn, hrest⟩ := Option.bind_eq_some_iff.mp hall
  rw [valueOf?_zeros] at hrest
  have hvalue : n * 10 ^ zeros = s.coefficient := by simpa using hrest
  refine ⟨n, hn, ?_⟩
  have hexponent : s.exponent + (Nat.toDigits 10 s.coefficient).length - 1 + 1 -
      ((significant s.coefficient).length : Int) = zeros + s.exponent := by
    rw [hzeros, List.length_append, List.length_replicate]
    omega
  rw [hexponent, zpow_add₀ (by norm_num), Scientific.value, ← hvalue]
  push_cast
  rw [zpow_natCast, mul_assoc]

/-! ## What is written -/

variable {leading : Int} {n : Nat}

theorem number?_plain (hdigits : ∀ c ∈ digits, IsDigit c) (hn : valueOf? 10 digits = some n) :
    number? (plain digits leading) = some ((n : ℚ) * 10 ^ (leading + 1 - digits.length)) := by
  unfold plain
  split
  · -- zeros in front of the digits count as places
    let zeros := List.replicate (-leading - 1).toNat '0'
    have hplaces : ∀ c ∈ zeros ++ digits, IsDigit c :=
      List.forall_mem_append.mpr ⟨isDigit_of_mem_zeros _, hdigits⟩
    have hvalue : valueOf? 10 (['0'] ++ (zeros ++ digits)) = some n :=
      valueOf?_zeros_append 1 (valueOf?_zeros_append _ hn)
    have hlength : (-((zeros ++ digits).length : Int)) = leading + 1 - digits.length := by
      rw [List.length_append, List.length_replicate]
      omega
    have hnumber := number?_of_point (isDigit_of_mem_zeros 1) hplaces hvalue
    rw [hlength] at hnumber
    exact hnumber
  · -- zeros behind the digits make the number greater, by as much as there are more places
    simp only
    let count := leading.toNat + 1
    let pad := count + 1 - digits.length
    let padded := digits ++ List.replicate pad '0'
    have hpadded : ∀ c ∈ padded, IsDigit c := isDigit_of_mem_padded hdigits pad
    have hvalue : valueOf? 10 (padded.take count ++ padded.drop count) = some (n * 10 ^ pad) := by
      rw [List.take_append_drop]
      exact valueOf?_append_zeros pad hn
    have hnumber := number?_of_point (fun c hc => hpadded c (List.mem_of_mem_take hc))
      (fun c hc => hpadded c (List.mem_of_mem_drop hc)) hvalue
    have hlength : (-((padded.drop count).length : Int)) = leading + 1 - digits.length - pad := by
      rw [List.length_drop, List.length_append, List.length_replicate]
      omega
    rw [hlength, zpow_sub₀ (by norm_num), zpow_natCast, Nat.cast_mul, Nat.cast_pow, Nat.cast_ofNat] at hnumber
    rw [mul_div_assoc', mul_right_comm, mul_div_cancel_right₀ _ (by positivity)] at hnumber
    exact hnumber

theorem exponent?_written (leading : Int) :
    exponent? ('e' :: (if leading < 0 then '-' else '+') :: Nat.toDigits 10 leading.natAbs) =
      some leading := by
  have hdigits := valueOf?_numeral leading.natAbs
  split
  · have hneg : -(leading.natAbs : Int) = leading := by omega
    rw [exponent?, hdigits, Option.map_some, hneg]
  · have hpos : (leading.natAbs : Int) = leading := by omega
    rw [exponent?, hdigits, Option.map_some, hpos]

theorem number?_withExponent (hdigits : ∀ c ∈ digits, IsDigit c) (hn : valueOf? 10 digits = some n) :
    number? (withExponent digits leading) = some ((n : ℚ) * 10 ^ (leading + 1 - digits.length)) := by
  have hexponent := exponent?_written leading
  unfold withExponent
  match digits with
  | [] =>
    -- no digits stand for zero, whatever the exponent is
    obtain rfl : 0 = n := by simpa [valueOf?] using hn
    have hnumber := number?_of_exponent [] [] (Or.inl ⟨rfl, rfl⟩) (by simp) (by simp) hn hexponent
    simpa using hnumber
  | [first] =>
    have hnumber := number?_of_exponent [first] [] (Or.inl ⟨rfl, rfl⟩) hdigits (by simp)
      (by rwa [List.append_nil]) hexponent
    simpa using hnumber
  | first :: second :: rest =>
    have hnumber := number?_of_exponent [first] (second :: rest) (Or.inr rfl)
      (fun c hc => hdigits c (List.mem_of_mem_head? (by simpa [eq_comm] using hc)))
      (fun c hc => hdigits c (List.mem_cons_of_mem _ hc)) hn hexponent
    have hlength : leading + 1 - ((first :: second :: rest).length : Int) =
        leading - ((second :: rest).length : Int) := by
      simp only [List.length_cons]
      omega
    rw [hlength]
    exact hnumber

/-- **A decimal is read back from what is written for it.** -/
theorem number?_write (l : Layout) (s : Scientific) : number? (l.write s) = some s.value := by
  obtain ⟨n, hn, hvalue⟩ := exists_value s
  have hdigits : ∀ c ∈ significant s.coefficient, IsDigit c := fun c hc => isDigit_of_mem_significant hc
  rw [hvalue]
  unfold write
  simp only
  split
  · exact number?_plain hdigits hn
  · exact number?_withExponent hdigits hn

/-- What is written for a value is a number that is read as this value. -/
theorem number?_render (l : Layout) (x : Float) :
    ∃ q, number? (l.render x) = some q ∧ Binary.ReadAs q x.toBits := by
  unfold render Binary.ReadAs
  cases hb : Binary.ofBits? x.toBits with
  | some b => exact ⟨_, number?_write l _, rounds_shortest (Binary.canonical_of_ofBits? hb).pos⟩
  | none =>
    have hzero : ∀ c ∈ ['0'], IsDigit c := isDigit_of_mem_zeros 1
    exact ⟨_, number?_of_point hzero hzero (by rfl), by simp⟩

/-- **What is written for two values is the same exactly if they are the same double.** -/
theorem render_eq_iff (l : Layout) (x y : Float) :
    l.render x = l.render y ↔ Binary.ofBits? x.toBits = Binary.ofBits? y.toBits := by
  constructor
  · intro h
    obtain ⟨q, hq, hx⟩ := number?_render l x
    obtain ⟨q', hq', hy⟩ := number?_render l y
    obtain rfl : q = q' := Option.some.inj (hq.symm.trans (h ▸ hq'))
    exact hx.unique hy
  · intro h
    unfold render
    rw [h]

/-! ## Characters -/

/-- The characters of a number. -/
def IsNumberCharacter (c : Char) : Prop := IsDigit c ∨ c = '.' ∨ c = 'e' ∨ c = '+' ∨ c = '-'

theorem isNumberCharacter_of_mem_plain (hdigits : ∀ c ∈ digits, IsDigit c) {c : Char}
    (hc : c ∈ plain digits leading) : IsNumberCharacter c := by
  unfold plain at hc
  split at hc
  · simp only [List.mem_append, List.mem_cons, List.not_mem_nil, or_false] at hc
    rcases hc with ((rfl | rfl) | hc) | hc
    · exact Or.inl isDigit_zero
    · exact Or.inr (Or.inl rfl)
    · exact Or.inl (isDigit_of_mem_zeros _ c hc)
    · exact Or.inl (hdigits c hc)
  · have hpadded := isDigit_of_mem_padded hdigits
    rcases List.mem_append.mp hc with hc | hc
    · exact Or.inl (hpadded _ c (List.mem_of_mem_take hc))
    · rcases List.mem_cons.mp hc with rfl | hc
      · exact Or.inr (Or.inl rfl)
      · exact Or.inl (hpadded _ c (List.mem_of_mem_drop hc))

theorem isNumberCharacter_of_mem_withExponent (hdigits : ∀ c ∈ digits, IsDigit c) {c : Char}
    (hc : c ∈ withExponent digits leading) : IsNumberCharacter c := by
  unfold withExponent at hc
  rcases List.mem_append.mp hc with hc | hc
  · split at hc
    · simp only [List.mem_cons] at hc hdigits
      rcases hc with rfl | rfl | rfl | hc
      · exact Or.inl (hdigits _ (Or.inl rfl))
      · exact Or.inr (Or.inl rfl)
      · exact Or.inl (hdigits _ (Or.inr (Or.inl rfl)))
      · exact Or.inl (hdigits _ (Or.inr (Or.inr hc)))
    · exact Or.inl (hdigits c hc)
  · rcases List.mem_cons.mp hc with rfl | hc
    · exact Or.inr (Or.inr (Or.inl rfl))
    · rcases List.mem_cons.mp hc with rfl | hc
      · split
        · exact Or.inr (Or.inr (Or.inr (Or.inr rfl)))
        · exact Or.inr (Or.inr (Or.inr (Or.inl rfl)))
      · exact Or.inl (Text.Numeral.mem_toDigits (by decide) hc)

theorem head?_plain (hdigits : ∀ c ∈ digits, IsDigit c) : ∃ c ∈ (plain digits leading).head?, IsDigit c := by
  unfold plain
  split
  · exact ⟨'0', rfl, isDigit_zero⟩
  · simp only
    cases digits with
    | nil => exact ⟨'0', rfl, isDigit_zero⟩
    | cons first rest => exact ⟨first, rfl, hdigits first List.mem_cons_self⟩

theorem head?_withExponent (hdigits : ∀ c ∈ digits, IsDigit c) (hne : digits ≠ []) :
    ∃ c ∈ (withExponent digits leading).head?, IsDigit c := by
  obtain ⟨first, rest, rfl⟩ := List.exists_cons_of_ne_nil hne
  refine ⟨first, ?_, hdigits first List.mem_cons_self⟩
  cases rest <;> rfl

/-- A decimal begins with a digit, and all its characters are those of a number. -/
theorem write_characters (l : Layout) {s : Scientific} (hs : s.value ≠ 0) :
    (∃ c ∈ (l.write s).head?, IsDigit c) ∧ ∀ c ∈ l.write s, IsNumberCharacter c := by
  have hdigits : ∀ c ∈ significant s.coefficient, IsDigit c := fun c hc => isDigit_of_mem_significant hc
  unfold write
  simp only
  split
  · exact ⟨head?_plain hdigits, fun c => isNumberCharacter_of_mem_plain hdigits⟩
  · have hne : significant s.coefficient ≠ [] := by
      intro hnil
      obtain ⟨n, hn, hvalue⟩ := exists_value s
      rw [hnil] at hn
      obtain rfl : 0 = n := by simpa [valueOf?] using hn
      exact hs (by simpa using hvalue)
    exact ⟨head?_withExponent hdigits hne, fun c => isNumberCharacter_of_mem_withExponent hdigits⟩

theorem render_characters (l : Layout) (x : Float) :
    (∃ c ∈ (l.render x).head?, IsDigit c) ∧ ∀ c ∈ l.render x, IsNumberCharacter c := by
  unfold render
  cases hb : Binary.ofBits? x.toBits with
  | some b =>
    have hcanonical := Binary.canonical_of_ofBits? hb
    exact write_characters l (hcanonical.pos_of_rounds (rounds_shortest hcanonical.pos)).ne'
  | none =>
    refine ⟨⟨'0', rfl, isDigit_zero⟩, fun c hc => ?_⟩
    simp only [List.mem_cons, List.not_mem_nil, or_false] at hc
    rcases hc with rfl | rfl | rfl
    · exact Or.inl isDigit_zero
    · exact Or.inr (Or.inl rfl)
    · exact Or.inl isDigit_zero

end Layout

end NonceSweep.Decimal
