import NonceSweep.Text.Hex
import NonceSweep.Proofs.Text.Blank

/-!
# Hexadecimal text, read and written

Reading accepts exactly the digits of the wanted number of bytes, in either case; writing what was read gives
the same digits in lower case, and reading what was written gives the same bytes. A text that is refused is
refused for one fault, and which one is known from the text: its length in bytes comes before its digits,
and of the bytes that are no digits the leftmost is named.

## Contents

- `IsHexDigit`, `Hex.IsDigit`: digits as characters and as bytes of a text
- `Hex.decode_encode`: what was written is read back
- `Hex.decode_eq_ok_iff`, `Hex.decode_eq_error_iff`: what is accepted, and what is wrong with the rest
- `Hex.digits_utf8_iff`: a text whose bytes are digits is a text of digits
-/

namespace NonceSweep.Text

/-! ## Digits -/

/-- The hexadecimal digits, of either case. -/
def IsHexDigit (c : Char) : Prop :=
  ('0' ≤ c ∧ c ≤ '9') ∨ ('a' ≤ c ∧ c ≤ 'f') ∨ ('A' ≤ c ∧ c ≤ 'F')

instance : DecidablePred IsHexDigit := fun c =>
  inferInstanceAs (Decidable (('0' ≤ c ∧ c ≤ '9') ∨ ('a' ≤ c ∧ c ≤ 'f') ∨ ('A' ≤ c ∧ c ≤ 'F')))

theorem isHexDigit_iff (c : Char) : IsHexDigit c ↔
    (48 ≤ c.toNat ∧ c.toNat ≤ 57) ∨ (97 ≤ c.toNat ∧ c.toNat ≤ 102) ∨ (65 ≤ c.toNat ∧ c.toNat ≤ 70) :=
  Iff.rfl

theorem isBlank_of_isHexDigit {c : Char} (h : IsHexDigit c) : isBlank c = false := by
  rw [isHexDigit_iff] at h
  simp only [isBlank, blankRanges, List.any_cons, List.any_nil, Bool.or_false, Bool.or_eq_false_iff,
    Bool.and_eq_false_iff, decide_eq_false_iff_not]
  omega

theorem isHexDigit_of_toLower {c : Char} (h : IsHexDigit c.toLower) : IsHexDigit c := by
  unfold Char.toLower at h
  split at h
  · rename_i hupper
    obtain ⟨hA, hZ⟩ := hupper
    have hlow : 65 ≤ c.toNat := UInt32.le_iff_toNat_le.mp hA
    have hhigh : c.toNat ≤ 90 := UInt32.le_iff_toNat_le.mp hZ
    have hvalue : (c.val + ('a'.val - 'A'.val)).toNat = c.toNat + 32 := by
      rw [UInt32.toNat_add]
      exact Nat.mod_eq_of_lt (show c.toNat + 32 < 2 ^ 32 by omega)
    rw [isHexDigit_iff] at h ⊢
    simp only [Char.toNat] at h hlow hhigh hvalue ⊢
    omega
  · exact h

namespace Hex

/-- The character of a byte, as far as a digit is concerned. -/
def character (byte : UInt8) : Char := Char.ofNat byte.toNat

theorem toNat_character (byte : UInt8) : (character byte).toNat = byte.toNat := by
  have hvalid : byte.toNat.isValidChar := Or.inl (Nat.lt_trans byte.toNat_lt (by decide))
  rw [character, Char.ofNat, dif_pos hvalid]
  rfl

/-- The bytes that are digits. -/
def IsDigit (byte : UInt8) : Prop := IsHexDigit (character byte)

theorem isDigit_iff (byte : UInt8) : IsDigit byte ↔
    (48 ≤ byte.toNat ∧ byte.toNat ≤ 57) ∨ (97 ≤ byte.toNat ∧ byte.toNat ≤ 102) ∨
      (65 ≤ byte.toNat ∧ byte.toNat ≤ 70) := by
  rw [IsDigit, isHexDigit_iff, toNat_character]

theorem value?_eq_none {byte : UInt8} (h : ¬ IsDigit byte) : value? byte = none := by
  rw [isDigit_iff] at h
  simp only [value?, UInt8.le_iff_toNat_le, UInt8.reduceToNat]
  rw [if_neg (by omega), if_neg (by omega), if_neg (by omega)]

/-- A digit has a value, and the digit of that value is the same in lower case. -/
theorem value?_of_isDigit {byte : UInt8} (h : IsDigit byte) :
    ∃ v, value? byte = some v ∧ v < 16 ∧ digit v = (character byte).toLower := by
  have hcheck : ∀ n : Nat, n < 256 →
      (48 ≤ n ∧ n ≤ 57) ∨ (97 ≤ n ∧ n ≤ 102) ∨ (65 ≤ n ∧ n ≤ 70) →
      ∃ v < 16, value? (UInt8.ofNat n) = some v ∧ digit v = (Char.ofNat n).toLower := by
    decide +kernel
  rw [isDigit_iff] at h
  obtain ⟨v, hv, hvalue, hdigit⟩ := hcheck byte.toNat byte.toNat_lt h
  rw [UInt8.ofNat_toNat] at hvalue
  exact ⟨v, hvalue, hv, hdigit⟩

/-- What is written for a number below sixteen is a digit of this value. -/
theorem value?_digit : ∀ n < 16, value? (UInt8.ofNat (digit n).toNat) = some n := by decide

theorem isHexDigit_digit {n : Nat} (hn : n < 16) : IsHexDigit (digit n) := by
  have hcheck : ∀ n < 16, (48 ≤ (digit n).toNat ∧ (digit n).toNat ≤ 57) ∨
      (97 ≤ (digit n).toNat ∧ (digit n).toNat ≤ 102) ∨
      (65 ≤ (digit n).toNat ∧ (digit n).toNat ≤ 70) := by decide
  exact (isHexDigit_iff _).mpr (hcheck n hn)

/-! ## Pairs of digits -/

theorem pairs_cons_cons {high low : UInt8} {h l : Nat} (rest : List UInt8) (position : Nat)
    (hhigh : value? high = some h) (hlow : value? low = some l) :
    pairs (high :: low :: rest) position =
      (pairs rest (position + 2)).map (UInt8.ofNat (16 * h + l) :: ·) := by
  simp only [pairs, value, hhigh, hlow]
  cases pairs rest (position + 2) <;> rfl

/-- Digits are read as bytes, and these are written as the same digits in lower case. -/
theorem pairs_of_digits : ∀ (text : List UInt8) (position : Nat), text.length % 2 = 0 →
    (∀ byte ∈ text, IsDigit byte) → ∃ bytes, pairs text position = .ok bytes ∧
      encode bytes = text.map fun byte => (character byte).toLower
  | [], _, _, _ => ⟨[], rfl, rfl⟩
  | [_], _, heven, _ => by simp at heven
  | high :: low :: rest, position, heven, hdigits => by
    obtain ⟨h, hhigh, hlt, hhighLower⟩ := value?_of_isDigit (hdigits high (by simp))
    obtain ⟨l, hlow, llt, hlowLower⟩ := value?_of_isDigit (hdigits low (by simp))
    obtain ⟨bytes, hbytes, hencode⟩ := pairs_of_digits rest (position + 2)
      (by simp at heven; omega) fun byte hbyte => hdigits byte (by simp [hbyte])
    refine ⟨UInt8.ofNat (16 * h + l) :: bytes, ?_, ?_⟩
    · rw [pairs_cons_cons rest position hhigh hlow, hbytes]
      rfl
    · -- the byte falls into the two numbers that it was put together from
      have hvalue : (UInt8.ofNat (16 * h + l)).toNat = 16 * h + l := UInt8.toNat_ofNat_of_lt' (by
        show _ < 256
        omega)
      have hpair : encodeByte (UInt8.ofNat (16 * h + l)) =
          [(character high).toLower, (character low).toLower] := by
        rw [encodeByte, hvalue, show (16 * h + l) / 16 = h by omega,
          show (16 * h + l) % 16 = l by omega, hhighLower, hlowLower]
      rw [encode] at hencode
      rw [encode, List.flatMap_cons, hpair, hencode]
      rfl

/-- Of the bytes that are no digits the first is reported. -/
theorem pairs_of_first_fault : ∀ (before : List UInt8) (byte : UInt8) (behind : List UInt8)
    (position : Nat), (before ++ byte :: behind).length % 2 = 0 → (∀ digit ∈ before, IsDigit digit) →
    ¬ IsDigit byte → pairs (before ++ byte :: behind) position =
      .error (.invalidCharacter byte (position + before.length))
  | [], byte, [], _, heven, _, _ => by simp at heven
  | [], byte, low :: rest, position, _, _, hbyte => by
    simp only [List.nil_append, pairs, value, value?_eq_none hbyte]
    rfl
  | [high], byte, rest, position, _, hbefore, hbyte => by
    obtain ⟨h, hhigh, -, -⟩ := value?_of_isDigit (hbefore high (by simp))
    simp only [List.cons_append, List.nil_append, pairs, value, hhigh, value?_eq_none hbyte]
    rfl
  | high :: low :: before, byte, behind, position, heven, hbefore, hbyte => by
    obtain ⟨h, hhigh, -, -⟩ := value?_of_isDigit (hbefore high (by simp))
    obtain ⟨l, hlow, -, -⟩ := value?_of_isDigit (hbefore low (by simp))
    have hrest := pairs_of_first_fault before byte behind (position + 2) (by simp at heven ⊢; omega)
      (fun digit hdigit => hbefore digit (by simp [hdigit])) hbyte
    rw [List.cons_append, List.cons_append, pairs_cons_cons _ position hhigh hlow, hrest]
    simp only [Except.map, List.length_cons, Nat.add_assoc, Nat.add_comm 2, Nat.reduceAdd]

/-- A text consists of digits, or there is a first byte in it that is none. -/
theorem digits_or_first_fault (text : List UInt8) : (∀ byte ∈ text, IsDigit byte) ∨
    ∃ before byte behind, text = before ++ byte :: behind ∧ (∀ digit ∈ before, IsDigit digit) ∧
      ¬ IsDigit byte := by
  induction text with
  | nil => exact .inl (by simp)
  | cons first rest ih =>
    by_cases hfirst : IsDigit first
    · obtain hdigits | ⟨before, byte, behind, rfl, hbefore, hbyte⟩ := ih
      · exact .inl (by simpa using ⟨hfirst, hdigits⟩)
      · exact .inr ⟨first :: before, byte, behind, rfl, by simpa using ⟨hfirst, hbefore⟩, hbyte⟩
    · exact .inr ⟨[], first, rest, rfl, by simp, hfirst⟩

/-! ## Whole texts -/

/-- What is wrong with a text that is refused. -/
def Refuses (size : Nat) (text : List UInt8) (fault : Fault) : Prop :=
  if text.length % 2 = 1 then fault = .oddLength
  else if text.length ≠ 2 * size then fault = .wrongLength
  else ∃ before byte behind, text = before ++ byte :: behind ∧ (∀ digit ∈ before, IsDigit digit) ∧
    ¬ IsDigit byte ∧ fault = .invalidCharacter byte before.length

/-- A text of as many digits as wanted is read, and what is read is written as the same digits in lower case. -/
theorem decode_of_digits {size : Nat} {text : List UInt8} (hlength : text.length = 2 * size)
    (hdigits : ∀ byte ∈ text, IsDigit byte) : ∃ bytes, decode size text = .ok bytes ∧
      encode bytes = text.map fun byte => (character byte).toLower := by
  obtain ⟨bytes, hbytes, hencode⟩ := pairs_of_digits text 0 (by omega) hdigits
  refine ⟨bytes, ?_, hencode⟩
  rw [decode, if_neg (by omega), if_neg (fun hne => hne hlength), hbytes]

theorem decode_of_refuses {size : Nat} {text : List UInt8} {fault : Fault}
    (h : Refuses size text fault) : decode size text = .error fault := by
  unfold Refuses at h
  unfold decode
  split
  · rename_i hodd
    rw [if_pos hodd] at h
    rw [h]
  · rename_i hodd
    rw [if_neg hodd] at h
    split
    · rename_i hlength
      rw [if_pos hlength] at h
      rw [h]
    · rename_i hlength
      rw [if_neg hlength] at h
      obtain ⟨before, byte, behind, rfl, hbefore, hbyte, rfl⟩ := h
      rw [pairs_of_first_fault before byte behind 0 (by omega) hbefore hbyte, Nat.zero_add]

/-- A text is one of as many digits as wanted, or something is wrong with it. -/
theorem digits_or_refuses (size : Nat) (text : List UInt8) :
    (text.length = 2 * size ∧ ∀ byte ∈ text, IsDigit byte) ∨ ∃ fault, Refuses size text fault := by
  unfold Refuses
  by_cases hodd : text.length % 2 = 1
  · exact .inr ⟨.oddLength, by rw [if_pos hodd]⟩
  by_cases hlength : text.length ≠ 2 * size
  · exact .inr ⟨.wrongLength, by rw [if_neg hodd, if_pos hlength]⟩
  obtain hdigits | ⟨before, byte, behind, hfault⟩ := digits_or_first_fault text
  · exact .inl ⟨Classical.not_not.mp hlength, hdigits⟩
  · refine .inr ⟨.invalidCharacter byte before.length, ?_⟩
    rw [if_neg hodd, if_neg hlength]
    exact ⟨before, byte, behind, hfault.1, hfault.2.1, hfault.2.2, rfl⟩

theorem decode_eq_ok_iff {size : Nat} {text : List UInt8} : (∃ bytes, decode size text = .ok bytes) ↔
    text.length = 2 * size ∧ ∀ byte ∈ text, IsDigit byte := by
  constructor
  · rintro ⟨bytes, hbytes⟩
    obtain hdigits | ⟨fault, hfault⟩ := digits_or_refuses size text
    · exact hdigits
    · rw [decode_of_refuses hfault] at hbytes
      cases hbytes
  · rintro ⟨hlength, hdigits⟩
    obtain ⟨bytes, hbytes, -⟩ := decode_of_digits hlength hdigits
    exact ⟨bytes, hbytes⟩

theorem decode_eq_error_iff {size : Nat} {text : List UInt8} {fault : Fault} :
    decode size text = .error fault ↔ Refuses size text fault := by
  refine ⟨fun herror => ?_, decode_of_refuses⟩
  obtain ⟨hlength, hdigits⟩ | ⟨fault', hfault⟩ := digits_or_refuses size text
  · obtain ⟨bytes, hbytes, -⟩ := decode_of_digits hlength hdigits
    rw [hbytes] at herror
    cases herror
  · rw [decode_of_refuses hfault] at herror
    cases herror
    exact hfault

/-! ## Digits as characters -/

theorem utf8EncodeChar_of_isHexDigit {c : Char} (h : IsHexDigit c) :
    String.utf8EncodeChar c = [UInt8.ofNat c.toNat] := by
  rw [isHexDigit_iff] at h
  have hvalue : c.val.toNat = c.toNat := rfl
  simp only [String.utf8EncodeChar, hvalue]
  rw [if_pos (by omega)]

theorem toNat_ofNat_of_isHexDigit {c : Char} (h : IsHexDigit c) :
    (UInt8.ofNat c.toNat).toNat = c.toNat := by
  rw [isHexDigit_iff] at h
  exact UInt8.toNat_ofNat_of_lt' (show c.toNat < 256 by omega)

theorem character_of_isHexDigit {c : Char} (h : IsHexDigit c) : character (UInt8.ofNat c.toNat) = c := by
  rw [character, toNat_ofNat_of_isHexDigit h, Char.ofNat_toNat]

/-- The bytes of a text of digits, one for each character. -/
theorem utf8_of_digits {text : List Char} (h : ∀ c ∈ text, IsHexDigit c) :
    utf8 text = text.map fun c => UInt8.ofNat c.toNat := by
  induction text with
  | nil => rfl
  | cons c rest ih =>
    have hrest := ih fun c hc => h c (List.mem_cons_of_mem _ hc)
    rw [utf8] at hrest
    rw [utf8, List.flatMap_cons, utf8EncodeChar_of_isHexDigit (h c List.mem_cons_self), hrest]
    rfl

/-- Only digits have digits as their bytes: the first byte of any other character is no digit. -/
theorem isHexDigit_of_utf8EncodeChar {c : Char} (h : ∀ byte ∈ String.utf8EncodeChar c, IsDigit byte) :
    IsHexDigit c := by
  have hvalue : c.val.toNat = c.toNat := rfl
  simp only [String.utf8EncodeChar, isDigit_iff] at h
  rw [isHexDigit_iff]
  split at h
  · have hbyte := h _ List.mem_cons_self
    rw [UInt8.toNat_ofNat_of_lt' (show c.val.toNat < 256 by omega)] at hbyte
    omega
  · split at h
    · have hbyte := h _ List.mem_cons_self
      rw [UInt8.toNat_ofNat'] at hbyte
      omega
    · split at h
      · have hbyte := h _ List.mem_cons_self
        rw [UInt8.toNat_ofNat'] at hbyte
        omega
      · have hbyte := h _ List.mem_cons_self
        rw [UInt8.toNat_ofNat'] at hbyte
        omega

theorem digits_utf8_iff {text : List Char} :
    (∀ byte ∈ utf8 text, IsDigit byte) ↔ ∀ c ∈ text, IsHexDigit c := by
  constructor
  · intro h c hc
    apply isHexDigit_of_utf8EncodeChar
    intro byte hbyte
    exact h byte (List.mem_flatMap.mpr ⟨c, hc, hbyte⟩)
  · intro h byte hbyte
    rw [utf8_of_digits h] at hbyte
    obtain ⟨c, hc, rfl⟩ := List.mem_map.mp hbyte
    rw [IsDigit, character_of_isHexDigit (h c hc)]
    exact h c hc

/-! ## What was written -/

theorem isHexDigit_of_mem_encode {bytes : List UInt8} {c : Char} (hc : c ∈ encode bytes) :
    IsHexDigit c := by
  obtain ⟨byte, -, hpair⟩ := List.mem_flatMap.mp hc
  have hbyte := byte.toNat_lt
  obtain rfl | rfl : c = digit (byte.toNat / 16) ∨ c = digit (byte.toNat % 16) := by
    simpa [encodeByte] using hpair
  · exact isHexDigit_digit (by omega)
  · exact isHexDigit_digit (by omega)

theorem pairs_encode (bytes : List UInt8) (position : Nat) :
    pairs ((encode bytes).map fun c => UInt8.ofNat c.toNat) position = .ok bytes := by
  induction bytes generalizing position with
  | nil => rfl
  | cons byte rest ih =>
    have hbyte := byte.toNat_lt
    have hhigh := value?_digit (byte.toNat / 16) (by omega)
    have hlow := value?_digit (byte.toNat % 16) (by omega)
    have hencode : encode (byte :: rest) =
        digit (byte.toNat / 16) :: digit (byte.toNat % 16) :: encode rest := rfl
    rw [hencode, List.map_cons, List.map_cons, pairs_cons_cons _ position hhigh hlow, ih, Nat.div_add_mod,
      UInt8.ofNat_toNat]
    rfl

theorem length_encode (bytes : List UInt8) : (encode bytes).length = 2 * bytes.length := by
  induction bytes with
  | nil => rfl
  | cons byte rest ih =>
    have hencode : encode (byte :: rest) =
        digit (byte.toNat / 16) :: digit (byte.toNat % 16) :: encode rest := rfl
    simp only [hencode, List.length_cons, ih]
    omega

theorem decode_encode {size : Nat} {bytes : List UInt8} (h : bytes.length = size) :
    decode size (utf8 (encode bytes)) = .ok bytes := by
  have hlength := length_encode bytes
  rw [utf8_of_digits fun c hc => isHexDigit_of_mem_encode hc, decode, if_neg (by simp; omega),
    if_neg (by simp; omega), pairs_encode]

end Hex

end NonceSweep.Text
