import NonceSweep.Program
import NonceSweep.Proofs.Text.Blank
import NonceSweep.Proofs.Text.Numeral

/-!
# Which texts are masks

A mask is a numeral for a word, with a mark in front if it is hexadecimal. Which texts are read as which mask,
and what is wrong with the others, is said here without the reader: by the marks, an optional sign and the
value of digits. No text is read as a word that its digits do not stand for, however many digits there are.

## Main results

- `masks_are_read_exactly`: masks, faults, messages, and the masks that are printed
-/

namespace NonceSweep

open Text.Numeral (IsNumeral Refuses greatestWord)

/-! ## Marks -/

/-- The texts that begin with a mark for hexadecimal notation, and what is behind it. -/
def Marked (text numeral : List Char) : Prop :=
  text = '0' :: 'x' :: numeral ∨ text = '0' :: 'X' :: numeral

/-- The numeral in a mask, and its base. -/
def WrittenIn (text : List Char) (radix : Nat) (numeral : List Char) : Prop :=
  (radix = 16 ∧ Marked text numeral) ∨ (radix = 10 ∧ numeral = text ∧ ∀ rest, ¬ Marked text rest)

theorem exists_writtenIn (text : List Char) : ∃ radix numeral, WrittenIn text radix numeral := by
  by_cases hmark : ∃ numeral, Marked text numeral
  · obtain ⟨numeral, hmark⟩ := hmark
    exact ⟨16, numeral, Or.inl ⟨rfl, hmark⟩⟩
  · exact ⟨10, text, Or.inr ⟨rfl, rfl, not_exists.mp hmark⟩⟩

variable {text numeral : List Char} {radix : Nat}

theorem WrittenIn.radix_pos (h : WrittenIn text radix numeral) : 0 < radix := by
  rcases h with ⟨rfl, -⟩ | ⟨rfl, -⟩ <;> decide

theorem maskValue_of_writtenIn (h : WrittenIn text radix numeral) :
    maskValue text = Text.Numeral.natural radix greatestWord numeral := by
  rcases h with ⟨rfl, rfl | rfl⟩ | ⟨rfl, rfl, hmark⟩
  · rfl
  · rfl
  · unfold maskValue
    split
    · exact absurd (Or.inl rfl) (hmark _)
    · exact absurd (Or.inr rfl) (hmark _)
    · rfl

/-! ## Reading -/

theorem maskValue_eq_ok_iff (text : List Char) (n : Nat) : maskValue text = .ok n ↔
    ∃ radix numeral, WrittenIn text radix numeral ∧ IsNumeral radix greatestWord numeral n := by
  constructor
  · intro hvalue
    obtain ⟨radix, numeral, hwritten⟩ := exists_writtenIn text
    rw [maskValue_of_writtenIn hwritten] at hvalue
    exact ⟨radix, numeral, hwritten, (Text.Numeral.natural_eq_ok_iff hwritten.radix_pos).mp hvalue⟩
  · rintro ⟨radix, numeral, hwritten, hnumeral⟩
    rw [maskValue_of_writtenIn hwritten]
    exact (Text.Numeral.natural_eq_ok_iff hwritten.radix_pos).mpr hnumeral

theorem maskValue_eq_error_iff (text : List Char) (fault : Text.Numeral.Fault) :
    maskValue text = .error fault ↔
      ∃ radix numeral, WrittenIn text radix numeral ∧ Refuses radix greatestWord numeral fault := by
  constructor
  · intro hvalue
    obtain ⟨radix, numeral, hwritten⟩ := exists_writtenIn text
    rw [maskValue_of_writtenIn hwritten] at hvalue
    exact ⟨radix, numeral, hwritten, (Text.Numeral.natural_eq_error_iff hwritten.radix_pos).mp hvalue⟩
  · rintro ⟨radix, numeral, hwritten, hrefuses⟩
    rw [maskValue_of_writtenIn hwritten]
    exact (Text.Numeral.natural_eq_error_iff hwritten.radix_pos).mpr hrefuses

theorem parseMask_eq_ok_iff (s : String) (mask : UInt64) :
    parseMask s = .ok mask ↔ maskValue (Text.trim s.toList) = .ok mask.toNat := by
  simp only [parseMask]
  cases hvalue : maskValue (Text.trim s.toList) with
  | error fault => simp
  | ok n =>
    -- what was read fits into a word, so that nothing is lost when it becomes one
    obtain ⟨_, _, _, _, _, _, _, hle⟩ := (maskValue_eq_ok_iff _ n).mp hvalue
    have hsize : n < UInt64.size := Nat.lt_of_le_of_lt hle (by decide)
    simp only [Except.ok.injEq]
    constructor
    · rintro rfl
      exact (UInt64.toNat_ofNat_of_lt' hsize).symm
    · rintro rfl
      exact UInt64.ofNat_toNat

theorem parseMask_eq_error_iff (s : String) (f : MaskFault) :
    parseMask s = .error f ↔
      f.text = Text.trim s.toList ∧ maskValue (Text.trim s.toList) = .error f.fault := by
  simp only [parseMask]
  cases maskValue (Text.trim s.toList) with
  | error fault =>
    obtain ⟨text, fault'⟩ := f
    simp [eq_comm]
  | ok n => simp

/-- What is said about a text that is no mask: what was read, and what is wrong with the numeral in it. -/
theorem mapError_parseMask_eq_error_iff (s refusal : String) :
    (parseMask s).mapError MaskFault.message = .error refusal ↔
      ∃ radix numeral fault, WrittenIn (Text.trim s.toList) radix numeral ∧
        Refuses radix greatestWord numeral fault ∧
        refusal = "invalid affinity mask '" ++ String.ofList (Text.trim s.toList) ++ "': " ++
          fault.message := by
  constructor
  · intro hrefusal
    cases hparse : parseMask s with
    | ok mask => simp [hparse, Except.mapError] at hrefusal
    | error f =>
      simp only [hparse, Except.mapError, Except.error.injEq] at hrefusal
      obtain ⟨htext, hvalue⟩ := (parseMask_eq_error_iff s f).mp hparse
      obtain ⟨radix, numeral, hwritten, hrefuses⟩ := (maskValue_eq_error_iff _ _).mp hvalue
      refine ⟨radix, numeral, f.fault, hwritten, hrefuses, ?_⟩
      rw [← hrefusal, ← htext]
      rfl
  · rintro ⟨radix, numeral, fault, hwritten, hrefuses, rfl⟩
    have hvalue : maskValue (Text.trim s.toList) = .error fault :=
      (maskValue_eq_error_iff _ _).mpr ⟨radix, numeral, hwritten, hrefuses⟩
    have hparse : parseMask s = .error ⟨Text.trim s.toList, fault⟩ :=
      (parseMask_eq_error_iff s _).mpr ⟨rfl, hvalue⟩
    rw [hparse]
    rfl

/-! ## Masks that were written -/

theorem isBlank_of_mem_toDigits {n : Nat} (hradix : 1 < radix) (hradix' : radix ≤ 16) {c : Char}
    (hc : c ∈ Nat.toDigits radix n) : Text.isBlank c = false := by
  have hdigits : ∀ d < 16, Text.isBlank (Nat.digitChar d) = false := by decide
  obtain ⟨d, hd, rfl⟩ := Text.Numeral.mem_toDigits hradix hc
  exact hdigits d (by omega)

/-- A mask is read back from a numeral of it in either notation. -/
theorem parseMask_of_writtenIn (mask : UInt64) (hradix : 1 < radix) (hradix' : radix ≤ 16)
    (hblank : ∀ c ∈ text, Text.isBlank c = false)
    (hwritten : WrittenIn text radix (Nat.toDigits radix mask.toNat)) :
    parseMask (String.ofList text) = .ok mask := by
  have hle : mask.toNat ≤ greatestWord := Nat.le_pred_of_lt mask.toNat_lt
  rw [parseMask_eq_ok_iff, String.toList_ofList, Text.trim_of_not_blank hblank,
    maskValue_of_writtenIn hwritten]
  exact Text.Numeral.natural_toDigits hradix hradix' hle

theorem Marked.mem (h : Marked text numeral) : 'x' ∈ text ∨ 'X' ∈ text := by
  rcases h with rfl | rfl
  · exact Or.inl (by simp)
  · exact Or.inr (by simp)

theorem not_marked_decimal (n : Nat) (rest : List Char) : ¬ Marked (Text.Numeral.decimal n) rest := by
  have hletters : ∀ d < 10, Nat.digitChar d ≠ 'x' ∧ Nat.digitChar d ≠ 'X' := by decide
  intro hmark
  rcases hmark.mem with hx | hX
  · obtain ⟨d, hd, hx⟩ := Text.Numeral.mem_toDigits (by decide) hx
    exact (hletters d hd).1 hx.symm
  · obtain ⟨d, hd, hX⟩ := Text.Numeral.mem_toDigits (by decide) hX
    exact (hletters d hd).2 hX.symm

theorem parseMask_decimal (mask : UInt64) :
    parseMask (String.ofList (Text.Numeral.decimal mask.toNat)) = .ok mask :=
  parseMask_of_writtenIn mask (by decide) (by decide)
    (fun c hc => isBlank_of_mem_toDigits (by decide) (by decide) hc)
    (Or.inr ⟨rfl, rfl, not_marked_decimal mask.toNat⟩)

theorem parseMask_hexadecimal (mask : UInt64) :
    parseMask (String.ofList (Text.Numeral.hexadecimal mask.toNat)) = .ok mask := by
  refine parseMask_of_writtenIn mask (by decide) (by decide) ?_ (Or.inl ⟨rfl, Or.inl rfl⟩)
  intro c hc
  rcases List.mem_cons.mp hc with rfl | hc
  · decide
  rcases List.mem_cons.mp hc with rfl | hc
  · decide
  · exact isBlank_of_mem_toDigits (by decide) (by decide) hc

/-- What the heading says about the mask of a plan is read back as this mask. -/
theorem heading_affinity (host : Host) (invocation : CommandLine.Invocation) (plan : Plan) :
    invocation.has .json = true ∨ plan.affinity = 0 ∨ ∃ text,
      "Affinity: " ++ text ∈ Program.heading host invocation plan ∧
        parseMask text = .ok plan.affinity := by
  by_cases hjson : invocation.has .json = true
  · exact Or.inl hjson
  by_cases hmask : plan.affinity = 0
  · exact Or.inr (Or.inl hmask)
  refine Or.inr (Or.inr ⟨_, ?_, parseMask_hexadecimal plan.affinity⟩)
  simp [Program.heading, hjson, hmask]

/-! ## The notation of masks -/

/-- **Masks are read exactly as they are written.** With `rest` the text without the blank characters at its
    ends: a mask is read exactly if `rest` is a numeral for it, hexadecimal behind `0x` or `0X` and decimal
    otherwise, with at most one `+` in front of digits of any number. Every other text is refused: as empty
    if nothing is behind the mark, as too large if the digits in front stand for more than a word holds, and
    else for a character that is no digit. The refusal is a sentence that quotes `rest` and has its own words
    for each of the three. What is printed for a mask, in either notation, is read back. -/
theorem masks_are_read_exactly :
    (∀ c d, Text.Numeral.digit? 10 c = some d ↔ d < 10 ∧ c.toLower = Nat.digitChar d) ∧
    (∀ c d, Text.Numeral.digit? 16 c = some d ↔ d < 16 ∧ c.toLower = Nat.digitChar d) ∧
    (∀ s : String,
      let rest := Text.trim s.toList
      Text.Stripped s.toList rest ∧
      (∀ mask, parseMask s = .ok mask ↔
        ∃ radix numeral, WrittenIn rest radix numeral ∧ IsNumeral radix (2 ^ 64 - 1) numeral mask.toNat) ∧
      (∀ f, parseMask s = .error f ↔ f.text = rest ∧
        ∃ radix numeral, WrittenIn rest radix numeral ∧ Refuses radix (2 ^ 64 - 1) numeral f.fault) ∧
      (∀ refusal, (parseMask s).mapError MaskFault.message = .error refusal ↔
        ∃ radix numeral reason, WrittenIn rest radix numeral ∧
          refusal = "invalid affinity mask '" ++ String.ofList rest ++ "': " ++ reason ∧
          ((Refuses radix (2 ^ 64 - 1) numeral .empty ∧
              reason = "cannot parse integer from empty string") ∨
            (Refuses radix (2 ^ 64 - 1) numeral .tooLarge ∧
              reason = "number too large to fit in target type") ∨
            (Refuses radix (2 ^ 64 - 1) numeral .invalidDigit ∧
              reason = "invalid digit found in string")))) ∧
    (∀ f : MaskFault, f.message =
      "invalid affinity mask '" ++ String.ofList f.text ++ "': " ++ f.fault.message) ∧
    (∀ mask : UInt64, parseMask (String.ofList (Text.Numeral.decimal mask.toNat)) = .ok mask ∧
      parseMask (String.ofList (Text.Numeral.hexadecimal mask.toNat)) = .ok mask) ∧
    (∀ host invocation plan, invocation.has .json = true ∨ plan.affinity = 0 ∨ ∃ text,
      "Affinity: " ++ text ∈ Program.heading host invocation plan ∧
        parseMask text = .ok plan.affinity) := by
  have hgreatest : greatestWord = 2 ^ 64 - 1 := rfl
  refine ⟨Text.Numeral.digit?_eq_some_iff (by decide), Text.Numeral.digit?_eq_some_iff (by decide), ?_,
    fun f => rfl, fun mask => ⟨parseMask_decimal mask, parseMask_hexadecimal mask⟩, heading_affinity⟩
  intro s rest
  refine ⟨Text.trim_stripped _, ?_, ?_, ?_⟩
  · intro mask
    rw [parseMask_eq_ok_iff, maskValue_eq_ok_iff, hgreatest]
  · intro f
    rw [parseMask_eq_error_iff, maskValue_eq_error_iff, hgreatest]
  · intro refusal
    rw [mapError_parseMask_eq_error_iff, hgreatest]
    constructor
    · rintro ⟨radix, numeral, fault, hwritten, hrefuses, hrefusal⟩
      have hreason := Text.Numeral.exists_refuses_iff.mp ⟨fault, hrefuses, rfl⟩
      exact ⟨radix, numeral, fault.message, hwritten, hrefusal, hreason⟩
    · rintro ⟨radix, numeral, reason, hwritten, hrefusal, hreason⟩
      obtain ⟨fault, hrefuses, rfl⟩ := Text.Numeral.exists_refuses_iff.mpr hreason
      exact ⟨radix, numeral, fault, hwritten, hrefuses, hrefusal⟩

example : maskValue ['0', 'X', '+', '0', '0', 'f', 'F'] = .ok 255 := by rfl

-- the digit with which the value passes the greatest word comes before the letter
example : maskValue "0x10000000000000000g".toList = .error .tooLarge := by decide

example : maskValue "0xffffffffffffffffg".toList = .error .invalidDigit := by decide

end NonceSweep
