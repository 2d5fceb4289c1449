import NonceSweep.Work.Candidate
import NonceSweep.Proofs.Layout

/-!
# Patching candidates again and again

Workers never make a fresh candidate for a nonce: they write the nonce into a candidate that held another
one. The lemmas here say that this makes no difference, and that candidates with different nonces are
different inputs.

## Main results

- `byteAt_writeNonce`: the bytes of a candidate, inside the field and outside
- `Template.patch_candidate`: a patched candidate is a fresh one
- `Template.candidate_injective`: the nonce can be read off the bytes
-/

namespace NonceSweep

open Bytes (byteAt)

/-! ## The nonce field -/

/-- The bytes after a nonce was written: its own four in the field, and no change outside. -/
theorem byteAt_writeNonce (bytes : ByteArray) (offset : Nat) (fits : offset + nonceSize ≤ bytes.size)
    (nonce : UInt32) (j : Nat) :
    byteAt (writeNonce bytes offset fits nonce) j =
      if j = offset then nonce.toUInt8
      else if j = offset + 1 then (nonce >>> 8).toUInt8
      else if j = offset + 2 then (nonce >>> 16).toUInt8
      else if j = offset + 3 then (nonce >>> 24).toUInt8
      else byteAt bytes j := by
  simp only [writeNonce, Bytes.byteAt_set]
  grind

namespace Template

/-- Writing a nonce over another leaves nothing of the other. -/
theorem patch_candidate (t : Template) (m n : UInt32) :
    (t.candidate m).patch n = t.candidate n := by
  have hbytes : writeNonce (t.candidate m).bytes t.offset (t.candidate m).fits n =
      writeNonce t.bytes t.offset t.fits n := by
    -- inside the field both have the bytes of `n`, outside those of the template
    apply Bytes.ext_byteAt
    · simp [candidate, Candidate.patch]
    · intro j _
      simp only [byteAt_writeNonce, candidate, Candidate.patch]
      grind
  simp only [Candidate.patch, candidate] at hbytes ⊢
  simp only [hbytes]

theorem patch_of_candidate (t : Template) {c : Candidate} (hc : ∃ m, c = t.candidate m) (n : UInt32) :
    c.patch n = t.candidate n := by
  obtain ⟨m, rfl⟩ := hc
  exact t.patch_candidate m n

theorem nonce_candidate (t : Template) (n : UInt32) : (t.candidate n).nonce = n := by
  apply Bytes.word32_of_bytes
  · simp [candidate, Candidate.patch, byteAt_writeNonce]
  · simp [candidate, Candidate.patch, byteAt_writeNonce]
  · simp [candidate, Candidate.patch, byteAt_writeNonce]
  · simp [candidate, Candidate.patch, byteAt_writeNonce]

/-- Candidates with different nonces are different inputs. -/
theorem candidate_injective (t : Template) {m n : UInt32}
    (h : (t.candidate m).bytes = (t.candidate n).bytes) : m = n := by
  have hm := t.nonce_candidate m
  have hn := t.nonce_candidate n
  unfold Candidate.nonce at hm hn
  have hoffset : (t.candidate m).offset = (t.candidate n).offset := rfl
  -- both nonces are read from the same bytes at the same place
  rw [h, hoffset] at hm
  exact hm.symm.trans hn

end Template

end NonceSweep
