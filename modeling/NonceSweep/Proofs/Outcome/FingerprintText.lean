import NonceSweep.Outcome.Report
import NonceSweep.Proofs.Layout
import NonceSweep.Proofs.Outcome.Exclusive
import NonceSweep.Proofs.Text.Hex

/-!
# Fingerprints as bytes and as text

The 32 bytes of a fingerprint and its 64 digits are two ways to write the same thing. Nothing is lost in
either, and of the many texts that are read as a fingerprint (blank ends, digits of either case) all but
these ways of writing it down are refused, each for a reason that the text alone decides.

## Main results

- `ofBytes_toBytes`, `toBytes_ofBytes`, `xor_toBytes`: bytes
- `parse_text`, `parse_eq_ok_iff`, `parse_eq_error_iff`, `characters_of_parse`: text
- `compare_parse_iff`: the texts that a report is found to agree with
- `text_is_exact_and_lossless`: all of this together
-/

namespace NonceSweep

open Text (IsHexDigit)

namespace Fingerprint

/-! ## Bytes -/

/-- The hash whose lanes a fingerprint has. -/
def digest (f : Fingerprint) : Digest :=
  ⟨f.lanes[0], f.lanes[1], f.lanes[2], f.lanes[3]⟩

theorem ofHash_digest (f : Fingerprint) : ofHash f.digest = f := by
  apply ext_lanes
  intro i
  match i with
  | 0 => rfl
  | 1 => rfl
  | 2 => rfl
  | 3 => rfl

theorem toBytes_ofHash (h : Digest) : (ofHash h).toBytes = h.toBytes := by
  simp [toBytes, ofHash, Digest.toBytes, Digest.push, Cell.push, Digest.front, Digest.back]

theorem toBytes_eq (f : Fingerprint) : f.toBytes = f.digest.toBytes := by
  rw [← toBytes_ofHash, ofHash_digest]

@[simp] theorem size_toBytes (f : Fingerprint) : f.toBytes.size = Digest.size := by
  rw [toBytes_eq, Digest.size_toBytes]

@[simp] theorem ofBytes_toBytes (f : Fingerprint) : ofBytes f.toBytes = f := by
  rw [toBytes_eq, ofBytes, Digest.ofBytes_toBytes, ofHash_digest]

theorem toBytes_ofBytes {bytes : ByteArray} (h : bytes.size = Digest.size) :
    (ofBytes bytes).toBytes = bytes := by
  rw [ofBytes, toBytes_ofHash, Digest.toBytes_ofBytes bytes 0 (by omega), Nat.zero_add, ← h,
    ByteArray.extract_zero_size]

theorem xor_toBytes (f g : Fingerprint) : (f ^^^ g).toBytes = Bytes.xor f.toBytes g.toBytes := by
  have hlane (i : Fin laneCount) : (f ^^^ g).lanes[i] = f.lanes[i] ^^^ g.lanes[i] := lanes_xor f g i
  have hdigest : (f ^^^ g).digest = f.digest.xor g.digest := by
    simp only [digest, Digest.xor, Digest.mk.injEq]
    exact ⟨hlane 0, hlane 1, hlane 2, hlane 3⟩
  rw [toBytes_eq, toBytes_eq, toBytes_eq, Digest.xor_toBytes, hdigest]

/-! ## Text -/

theorem isHexDigit_of_mem_characters {f : Fingerprint} {c : Char} (hc : c ∈ f.characters) :
    IsHexDigit c :=
  Text.Hex.isHexDigit_of_mem_encode hc

/-- A fingerprint is read back from its text. -/
theorem parse_text (f : Fingerprint) : parse f.text = .ok f := by
  have htrim : Text.trim f.characters = f.characters :=
    Text.trim_of_not_blank fun c hc => Text.isBlank_of_isHexDigit (isHexDigit_of_mem_characters hc)
  have hlength : f.toBytes.data.toList.length = Digest.size := by
    rw [Array.length_toList]
    exact f.size_toBytes
  have hdecode := Text.Hex.decode_encode hlength
  rw [parse, text, String.toList_ofList, htrim, characters, hdecode]
  show Except.ok (ofBytes f.toBytes) = _
  rw [ofBytes_toBytes]

theorem parse_eq_map (s : String) : parse s =
    (Text.Hex.decode Digest.size (Text.utf8 (Text.trim s.toList))).map
      fun bytes => ofBytes ⟨bytes.toArray⟩ := rfl

/-- Accepted are the texts of 64 digits, of either case, with blank ends or without. -/
theorem parse_eq_ok_iff (s : String) : (∃ f, parse s = .ok f) ↔
    (Text.trim s.toList).length = 64 ∧ ∀ c ∈ Text.trim s.toList, IsHexDigit c := by
  have hparse : (∃ f, parse s = .ok f) ↔
      ∃ bytes, Text.Hex.decode Digest.size (Text.utf8 (Text.trim s.toList)) = .ok bytes := by
    rw [parse_eq_map]
    cases Text.Hex.decode Digest.size (Text.utf8 (Text.trim s.toList)) <;> simp [Except.map]
  rw [hparse, Text.Hex.decode_eq_ok_iff, Text.Hex.digits_utf8_iff, and_congr_left_iff]
  intro hdigits
  rw [Text.Hex.utf8_of_digits hdigits, List.length_map]
  rfl

/-- What is wrong with a text that is refused: the number of its bytes, or else the first that is no digit. -/
theorem parse_eq_error_iff (s : String) (fault : Text.Hex.Fault) : parse s = .error fault ↔
    Text.Hex.Refuses Digest.size (Text.utf8 (Text.trim s.toList)) fault := by
  rw [← Text.Hex.decode_eq_error_iff, parse_eq_map]
  cases Text.Hex.decode Digest.size (Text.utf8 (Text.trim s.toList)) <;> simp [Except.map]

/-- The text of a fingerprint that was read: what was read, without blank ends and in lower case. -/
theorem characters_of_parse {s : String} {f : Fingerprint} (h : parse s = .ok f) :
    f.characters = (Text.trim s.toList).map Char.toLower := by
  obtain ⟨hlength, hdigits⟩ := (parse_eq_ok_iff s).mp ⟨f, h⟩
  have hutf8 := Text.Hex.utf8_of_digits hdigits
  have hsize : (Text.utf8 (Text.trim s.toList)).length = 2 * Digest.size := by
    rw [hutf8, List.length_map, hlength]
    rfl
  obtain ⟨bytes, hbytes, hencode⟩ :=
    Text.Hex.decode_of_digits hsize (Text.Hex.digits_utf8_iff.mpr hdigits)
  -- the bytes of the fingerprint are the bytes that were read
  have hf : f = ofBytes ⟨bytes.toArray⟩ := by
    rw [parse_eq_map, hbytes] at h
    exact (Except.ok.inj h).symm
  have hcount : bytes.length = Digest.size := by
    have hdouble := Text.Hex.length_encode bytes
    rw [hencode, List.length_map, hsize] at hdouble
    omega
  have htoBytes : f.toBytes = ⟨bytes.toArray⟩ := by
    rw [hf]
    exact toBytes_ofBytes hcount
  rw [characters, htoBytes, hencode, hutf8, List.map_map]
  apply List.map_congr_left
  intro c hc
  exact congrArg Char.toLower (Text.Hex.character_of_isHexDigit (hdigits c hc))

theorem characters_injective {f g : Fingerprint} (h : f.characters = g.characters) : f = g := by
  have htext : f.text = g.text := congrArg String.ofList h
  have hparse := parse_text f
  rw [htext, parse_text] at hparse
  exact (Except.ok.inj hparse).symm

theorem length_characters (f : Fingerprint) : f.characters.length = 64 := by
  rw [characters, Text.Hex.length_encode, Array.length_toList]
  exact congrArg (2 * ·) f.size_toBytes

end Fingerprint

/-! ## Comparing a report with a text -/

theorem Report.compare_eq_ok_iff (r : Report) (f : Fingerprint) :
    r.compare f = .ok () ↔ r.fingerprint = f := by
  unfold Report.compare
  split <;> simp_all

/-- The texts that a report agrees with: without blank ends and in lower case they are the text of its
    fingerprint. -/
theorem Report.compare_parse_iff (r : Report) (s : String) :
    (∃ f, Fingerprint.parse s = .ok f ∧ r.compare f = .ok ()) ↔
      (Text.trim s.toList).map Char.toLower = r.fingerprint.characters := by
  constructor
  · rintro ⟨f, hparse, hcompare⟩
    rw [(r.compare_eq_ok_iff f).mp hcompare, Fingerprint.characters_of_parse hparse]
  · intro hlower
    have hdigits : ∀ c ∈ Text.trim s.toList, IsHexDigit c := by
      intro c hc
      apply Text.isHexDigit_of_toLower
      apply Fingerprint.isHexDigit_of_mem_characters (f := r.fingerprint)
      rw [← hlower]
      exact List.mem_map_of_mem hc
    have hlength : (Text.trim s.toList).length = 64 := by
      rw [← List.length_map Char.toLower, hlower, Fingerprint.length_characters]
    obtain ⟨f, hparse⟩ := (Fingerprint.parse_eq_ok_iff s).mpr ⟨hlength, hdigits⟩
    refine ⟨f, hparse, (r.compare_eq_ok_iff f).mpr ?_⟩
    apply Fingerprint.characters_injective
    rw [← hlower, Fingerprint.characters_of_parse hparse]

/-! ## The format -/

/-- **The text of a fingerprint is exact and lossless.** Bytes and text are read back as what was written, and
    the bytes of an exclusive or are the exclusive or of the bytes. A text is read exactly if without the
    blank characters at its ends it consists of 64 digits; then its lower case is what is written for the
    result. Otherwise the fault is that its bytes are odd in number, or else that they are not 64, or else
    the first of them that is no digit, with its position. And a report agrees with the texts whose lower
    case, without blank ends, is the text of its fingerprint. -/
theorem Fingerprint.text_is_exact_and_lossless :
    (∀ f : Fingerprint, ofBytes f.toBytes = f ∧ parse f.text = .ok f) ∧
    (∀ bytes : ByteArray, bytes.size = Digest.size → (ofBytes bytes).toBytes = bytes) ∧
    (∀ f g : Fingerprint, (f ^^^ g).toBytes = Bytes.xor f.toBytes g.toBytes) ∧
    (∀ s : String,
      let rest := Text.trim s.toList
      let bytes := Text.utf8 rest
      Text.Stripped s.toList rest ∧
      ((∃ f, parse s = .ok f) ↔ rest.length = 64 ∧ ∀ c ∈ rest, IsHexDigit c) ∧
      (∀ f, parse s = .ok f → f.text = String.ofList (rest.map Char.toLower)) ∧
      (∀ fault, parse s = .error fault ↔
        if bytes.length % 2 = 1 then fault = .oddLength
        else if bytes.length ≠ 64 then fault = .wrongLength
        else ∃ before byte behind, bytes = before ++ byte :: behind ∧
          (∀ digit ∈ before, Text.Hex.IsDigit digit) ∧ ¬ Text.Hex.IsDigit byte ∧
          fault = .invalidCharacter byte before.length)) ∧
    (∀ (r : Report) (s : String), (∃ f, parse s = .ok f ∧ r.compare f = .ok ()) ↔
      (Text.trim s.toList).map Char.toLower = r.fingerprint.characters) := by
  refine ⟨fun f => ⟨ofBytes_toBytes f, parse_text f⟩, fun bytes => toBytes_ofBytes, xor_toBytes, ?_,
    Report.compare_parse_iff⟩
  intro s rest bytes
  refine ⟨Text.trim_stripped _, parse_eq_ok_iff s, ?_, parse_eq_error_iff s⟩
  intro f hparse
  exact congrArg String.ofList (characters_of_parse hparse)

/-- A text in upper case with blank ends, and 32 equal bytes. -/
theorem Fingerprint.upper_case_text_and_equal_bytes :
    let s := String.ofList (' ' :: List.replicate 64 'A' ++ ['\n'])
    let bytes : ByteArray := ⟨Array.replicate 32 0x2a⟩
    (∃ f, parse s = .ok f ∧ f.text = String.ofList (List.replicate 64 'a')) ∧
    bytes.size = Digest.size ∧ (ofBytes bytes).toBytes = bytes := by
  intro s bytes
  have hsize : bytes.size = Digest.size := rfl
  have hrest : Text.trim s.toList = List.replicate 64 'A' := by
    rw [String.toList_ofList]
    decide
  obtain ⟨-, hbytes, -, htexts, -⟩ := text_is_exact_and_lossless
  obtain ⟨-, hread, htext, -⟩ := htexts s
  rw [hrest] at hread htext
  have hdigits : ∀ c ∈ List.replicate 64 'A', IsHexDigit c := by
    intro c hc
    rw [List.eq_of_mem_replicate hc]
    decide
  obtain ⟨f, hf⟩ := hread.mpr ⟨List.length_replicate, hdigits⟩
  exact ⟨⟨f, hf, htext f hf⟩, hsize, hbytes bytes hsize⟩

end NonceSweep
