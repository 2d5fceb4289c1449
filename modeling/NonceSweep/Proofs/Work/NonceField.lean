import NonceSweep.Pool.Relay
import NonceSweep.Proofs.Engine.Flat
import NonceSweep.Proofs.Sweep.Outcome
import NonceSweep.Proofs.Work.Patching
import NonceSweep.Sweep.ProfileCheck

/-!
# The nonce field of a template

A template is accepted exactly if its field lies inside its bytes. From then on a candidate is the template
with four bytes replaced, however often it has been written to: what stood in the field before, in the
template or in the candidate, is gone.

That a field lies inside is part of the type of a template. Here the same is done in memory, where a sum of
words may wrap and a part of a byte string is taken only after a check, and nothing breaks off.

## Main results

- `make_eq_ok_iff`: which templates are accepted
- `Workbench.patchAll_eq`: writing in memory, again and again
- `AgreesOutsideField.candidate_eq`: the bytes in the field of a template do not matter
- `candidates_patch_the_field`: all of this, and what follows for sweeps
-/

namespace NonceSweep

open Bytes (byteAt ofWord32)
open Engine.Flat (plus slice overwrite exactly)

/-! ## Four bytes -/

variable {bytes : ByteArray} {offset : Nat}

theorem byteAt_writeNonce_of_outside (fits : offset + nonceSize ≤ bytes.size) (nonce : UInt32) {i : Nat}
    (hi : i < offset ∨ offset + nonceSize ≤ i) : byteAt (writeNonce bytes offset fits nonce) i = byteAt bytes i := by
  simp only [nonceSize] at hi
  rw [byteAt_writeNonce, if_neg (by omega), if_neg (by omega), if_neg (by omega), if_neg (by omega)]

/-- Writing a nonce is replacing the bytes of the field. -/
theorem writeNonce_eq (fits : offset + nonceSize ≤ bytes.size) (nonce : UInt32) :
    writeNonce bytes offset fits nonce =
      bytes.extract 0 offset ++ ofWord32 nonce ++ bytes.extract (offset + nonceSize) bytes.size := by
  have hfront : (bytes.extract 0 offset).size = offset := by
    rw [ByteArray.size_extract]
    omega
  have hback : (bytes.extract 0 offset ++ ofWord32 nonce).size = offset + nonceSize := by
    rw [ByteArray.size_append, hfront, Bytes.size_ofWord32, nonceSize]
  apply Bytes.ext_byteAt
  · rw [size_writeNonce, ByteArray.size_append, hback, ByteArray.size_extract]
    omega
  · intro i hi
    rw [size_writeNonce] at hi
    rw [Bytes.byteAt_append, Bytes.byteAt_append, hfront, hback]
    by_cases hbefore : i < offset
    · rw [byteAt_writeNonce_of_outside fits nonce (.inl hbefore), if_pos (by omega), if_pos hbefore,
        Bytes.byteAt_extract, Nat.zero_add, if_pos hbefore]
    by_cases hfield : i < offset + nonceSize
    · rw [if_pos hfield, if_neg hbefore]
      obtain ⟨k, hk, rfl⟩ : ∃ k < nonceSize, i = offset + k := ⟨i - offset, by omega, by omega⟩
      rw [Nat.add_sub_cancel_left, byteAt_writeNonce]
      match k, hk with
      | 0, _ => simp; rfl
      | 1, _ => simp; rfl
      | 2, _ => simp; rfl
      | 3, _ => simp; rfl
    · have hsum : offset + nonceSize + (i - (offset + nonceSize)) = i := by omega
      rw [byteAt_writeNonce_of_outside fits nonce (.inr (by omega)), if_neg hfield, Bytes.byteAt_extract, hsum,
        if_pos hi]

theorem extract_writeNonce (fits : offset + nonceSize ≤ bytes.size) (nonce : UInt32) :
    (writeNonce bytes offset fits nonce).extract offset (offset + nonceSize) = ofWord32 nonce := by
  have hfront : (bytes.extract 0 offset).size = offset := by
    rw [ByteArray.size_extract]
    omega
  have hmiddle := Bytes.extract_middle (bytes.extract 0 offset) (ofWord32 nonce)
    (bytes.extract (offset + nonceSize) bytes.size)
  rwa [hfront, Bytes.size_ofWord32, ← writeNonce_eq fits] at hmiddle

/-! ## Templates and candidates -/

namespace Template

theorem make_eq_ok_iff {t : Template} : make bytes offset = .ok t ↔ t.bytes = bytes ∧ t.offset = offset := by
  unfold make
  constructor
  · intro h
    split at h
    · cases h
      exact ⟨rfl, rfl⟩
    · cases h
  · rintro ⟨rfl, rfl⟩
    rw [dif_pos t.fits]

theorem exists_make_iff : (∃ t, make bytes offset = .ok t) ↔ offset + nonceSize ≤ bytes.size := by
  constructor
  · rintro ⟨t, h⟩
    obtain ⟨rfl, rfl⟩ := make_eq_ok_iff.mp h
    exact t.fits
  · intro fits
    exact ⟨⟨bytes, offset, fits⟩, make_eq_ok_iff.mpr ⟨rfl, rfl⟩⟩

/-- A candidate that was written to again and again is one that was made for the last nonce. -/
theorem foldl_patch (t : Template) (first : UInt32) (later : List UInt32) :
    later.foldl Candidate.patch (t.candidate first) = t.candidate (later.getLastD first) := by
  induction later generalizing first with
  | nil => rfl
  | cons nonce later ih => rw [List.foldl_cons, t.patch_candidate, ih, List.getLastD_cons]

/-- What a candidate has from its template, and what from its nonce. -/
structure Filled (t : Template) (nonce : UInt32) (c : Candidate) : Prop where
  size : c.bytes.size = t.bytes.size
  outside : ∀ i, i < t.offset ∨ t.offset + nonceSize ≤ i → byteAt c.bytes i = byteAt t.bytes i
  field : c.bytes.extract t.offset (t.offset + nonceSize) = ofWord32 nonce
  nonce : c.nonce = nonce

theorem filled_candidate (t : Template) (nonce : UInt32) : t.Filled nonce (t.candidate nonce) where
  size := size_writeNonce _ _ t.fits nonce
  outside := fun _ => byteAt_writeNonce_of_outside t.fits nonce
  field := extract_writeNonce t.fits nonce
  nonce := t.nonce_candidate nonce

end Template

/-! ## The field in memory -/

/-- Whether a field is accepted. A sum that wraps is no place in a byte string. -/
def accepts (bytes : ByteArray) (offset : Nat) : Bool :=
  match plus offset nonceSize with
  | .panicked => false
  | .done stop => stop ≤ bytes.size

/-- A template and the candidate that was made of it, two byte strings. -/
structure Workbench where
  template : ByteArray
  candidate : ByteArray

namespace Workbench

def writeField (bytes : ByteArray) (offset : Nat) (nonce : UInt32) : Attempt ByteArray := do
  let stop ← plus offset nonceSize
  overwrite bytes offset stop (ofWord32 nonce)

def readField (bytes : ByteArray) (offset : Nat) : Attempt UInt32 := do
  let stop ← plus offset nonceSize
  exactly nonceSize Bytes.word32 (← slice bytes offset stop)

/-- Copies a template and writes a nonce into the copy. -/
def make (template : ByteArray) (offset : Nat) (nonce : UInt32) : Attempt Workbench := do
  let candidate ← writeField template offset nonce
  return ⟨template, candidate⟩

def patch (w : Workbench) (offset : Nat) (nonce : UInt32) : Attempt Workbench := do
  let candidate ← writeField w.candidate offset nonce
  return { w with candidate }

/-- Writes one nonce after the other into the candidate. -/
def patchAll (offset : Nat) : List UInt32 → Workbench → Attempt Workbench
  | [], w => .done w
  | nonce :: later, w => do patchAll offset later (← w.patch offset nonce)

theorem writeField_eq (fits : offset + nonceSize ≤ bytes.size) (hsize : bytes.size < UInt64.size)
    (nonce : UInt32) : writeField bytes offset nonce = .done (writeNonce bytes offset fits nonce) := by
  have hcopy : offset + nonceSize - offset = (ofWord32 nonce).size := by
    rw [Nat.add_sub_cancel_left, Bytes.size_ofWord32, nonceSize]
  rw [writeField, Engine.Flat.plus_of_lt (Nat.lt_of_le_of_lt fits hsize), Engine.Flat.done_bind, overwrite,
    if_pos ⟨Nat.le_add_right _ _, fits, hcopy⟩, writeNonce_eq fits]

theorem readField_eq {c : Candidate} (hsize : c.bytes.size < UInt64.size) :
    readField c.bytes c.offset = .done c.nonce := by
  have hfield : (c.bytes.extract c.offset (c.offset + nonceSize)).size = nonceSize := by
    have hfits := c.fits
    rw [ByteArray.size_extract]
    omega
  rw [readField, Engine.Flat.plus_of_lt (Nat.lt_of_le_of_lt c.fits hsize), Engine.Flat.done_bind,
    Engine.Flat.slice_of_le (Nat.le_add_right _ _) c.fits, Engine.Flat.done_bind,
    Engine.Flat.exactly_of_size _ hfield, nonceSize, Bytes.word32_extract]
  rfl

/-- The step that writes one nonce. -/
theorem patch_eq {template : ByteArray} {c : Candidate} (hsize : c.bytes.size < UInt64.size) (nonce : UInt32) :
    patch ⟨template, c.bytes⟩ c.offset nonce = .done ⟨template, (c.patch nonce).bytes⟩ := by
  rw [patch, writeField_eq c.fits hsize]
  rfl

/-- The run over all nonces, by induction on them. -/
theorem patchAll_eq {template : ByteArray} {c : Candidate} (hsize : c.bytes.size < UInt64.size)
    (nonces : List UInt32) :
    patchAll c.offset nonces ⟨template, c.bytes⟩ = .done ⟨template, (nonces.foldl Candidate.patch c).bytes⟩ := by
  induction nonces generalizing c with
  | nil => rfl
  | cons nonce later ih =>
    have hpatched : (c.patch nonce).bytes.size < UInt64.size := by
      rwa [show (c.patch nonce).bytes.size = c.bytes.size from size_writeNonce _ _ c.fits nonce]
    rw [patchAll, patch_eq hsize, Engine.Flat.done_bind]
    exact ih hpatched

end Workbench

theorem accepts_iff (hsize : bytes.size < UInt64.size) :
    accepts bytes offset = true ↔ offset + nonceSize ≤ bytes.size := by
  unfold accepts plus
  split
  · rename_i hwraps
    split at hwraps
    · cases hwraps
    · simp
      omega
  · rename_i stop hstop
    split at hstop
    · cases hstop
      exact decide_eq_true_iff
    · cases hstop

/-! ## Templates that differ inside the field -/

/-- Two templates with the same field agree outside it. -/
structure AgreesOutsideField (t t' : Template) : Prop where
  offset : t.offset = t'.offset
  size : t.bytes.size = t'.bytes.size
  outside : ∀ i, i < t.offset ∨ t.offset + nonceSize ≤ i → byteAt t.bytes i = byteAt t'.bytes i

namespace AgreesOutsideField

variable {t t' : Template}

/-- What stands in the field of a template does not matter for its candidates. -/
theorem candidate_eq (h : AgreesOutsideField t t') (nonce : UInt32) : t.candidate nonce = t'.candidate nonce := by
  have hbytes : writeNonce t.bytes t.offset t.fits nonce = writeNonce t'.bytes t'.offset t'.fits nonce := by
    apply Bytes.ext_byteAt
    · rw [size_writeNonce, size_writeNonce, h.size]
    · intro i _
      -- inside the field both have the bytes of the nonce
      have houtside := h.outside i
      simp only [nonceSize] at houtside
      rw [byteAt_writeNonce, byteAt_writeNonce, ← h.offset]
      grind
  simp only [Template.candidate, Candidate.patch, Candidate.mk.injEq]
  exact ⟨hbytes, h.offset⟩

variable {b : Backend}

theorem worker_new_eq (h : AgreesOutsideField t t') (index : Nat) (strategy : Strategy) (bound : UInt64)
    (hasher : b.Hasher) (point : Point) :
    Worker.new index strategy bound hasher t point = Worker.new index strategy bound hasher t' point := by
  rw [Worker.new, Worker.new, h.candidate_eq]

theorem makeWorkers_eq (h : AgreesOutsideField t t') (host : Host) (plan : Plan) (shared : b.Shared)
    (count index : Nat) :
    Sweep.makeWorkers b host plan t shared count index = Sweep.makeWorkers b host plan t' shared count index := by
  induction count generalizing index with
  | zero => rfl
  | succ count ih => simp only [Sweep.makeWorkers, ih, h.worker_new_eq]

/-- Sweeps start with the same workers. -/
theorem start_eq (h : AgreesOutsideField t t') (b : Backend) (host : Host) (plan : Plan) :
    Sweep.start b host plan t = Sweep.start b host plan t' := by
  simp only [Sweep.start, Sweep.launch, h.makeWorkers_eq]

theorem relay_eq (h : AgreesOutsideField t t') (shared : b.Shared) (strategy : Strategy) (bounds : List UInt64)
    (index : Nat) (ledger : Ledger) :
    Relay.run b shared strategy t bounds index ledger = Relay.run b shared strategy t' bounds index ledger := by
  induction bounds generalizing index ledger with
  | nil => rfl
  | cons bound bounds ih => simp only [Relay.run, ih, h.worker_new_eq]

end AgreesOutsideField

/-- What workers may do after a sweep has started, up to some point. -/
def Sweep.Performs (b : Backend) (host : Host) (plan : Plan) (t : Template) (actions : List (Nat × Action)) :
    Prop :=
  ∃ pool last, (Sweep.start b host plan t).result = .ok (.ok pool) ∧ pool.Steps actions last

/-! ## The field and nothing but the field -/

/-- **Candidates are templates with another field.** A template is accepted exactly if its field lies inside
    its bytes, as numbers that do not wrap. A candidate to which nonces were written one after the other has
    the size of the template and its bytes outside the field; the field holds the last nonce, which is also
    what is read from it, and the candidate is the one that is made for this nonce. In memory all this is
    done without breaking off, and the template stays as it was. Nonces are told apart by the bytes of their
    candidates. And the bytes in the field of a template matter for nothing: candidates, the actions of
    workers, with their calls, and the outcomes of sweeps, of relays and of the check of the profiles are
    those of any other template that agrees outside the field. -/
theorem candidates_patch_the_field :
    (∀ (bytes : ByteArray) (offset : UInt64),
      ((∃ t, Template.make bytes offset.toNat = .ok t) ↔ offset.toNat + 4 ≤ bytes.size) ∧
      (∀ t, Template.make bytes offset.toNat = .ok t ↔ t.bytes = bytes ∧ t.offset = offset.toNat) ∧
      (bytes.size < UInt64.size →
        (accepts bytes offset.toNat = true ↔ ∃ t, Template.make bytes offset.toNat = .ok t))) ∧
    (∀ (t : Template) (first : UInt32) (later : List UInt32),
      let c := later.foldl Candidate.patch (t.candidate first)
      let last := later.getLastD first
      t.Filled last c ∧ c = t.candidate last ∧
      (t.bytes.size < UInt64.size →
        (do Workbench.patchAll t.offset later (← Workbench.make t.bytes t.offset first)) =
          .done ⟨t.bytes, c.bytes⟩ ∧
        Workbench.readField c.bytes t.offset = .done last)) ∧
    (∀ (t : Template) (m n : UInt32), (t.candidate m).bytes = (t.candidate n).bytes → m = n) ∧
    (∀ t t', AgreesOutsideField t t' →
      (∀ nonce, t.candidate nonce = t'.candidate nonce) ∧
      ∀ (b : Backend) (host : Host) (plan : Plan),
        (∀ actions, Sweep.Performs b host plan t actions ↔ Sweep.Performs b host plan t' actions) ∧
        (∀ schedule, Sweep.run b host schedule plan t = Sweep.run b host schedule plan t') ∧
        ProfileCheck.run b plan t = ProfileCheck.run b plan t' ∧
        ∀ shared strategy bounds index ledger,
          Relay.run b shared strategy t bounds index ledger =
            Relay.run b shared strategy t' bounds index ledger) := by
  refine ⟨?_, ?_, fun t m n => t.candidate_injective, ?_⟩
  · intro bytes offset
    refine ⟨Template.exists_make_iff, fun t => Template.make_eq_ok_iff, fun hsize => ?_⟩
    rw [accepts_iff hsize, Template.exists_make_iff]
  · intro t first later c last
    have hc : c = t.candidate last := t.foldl_patch first later
    refine ⟨hc ▸ t.filled_candidate last, hc, fun hsize => ?_⟩
    -- nothing that is written to changes its size, so all places stay within a word
    have hfirst : (t.candidate first).bytes.size < UInt64.size := by
      rwa [(t.filled_candidate first).size]
    have hlast : (t.candidate last).bytes.size < UInt64.size := by
      rwa [(t.filled_candidate last).size]
    constructor
    · rw [Workbench.make, Workbench.writeField_eq t.fits hsize]
      exact Workbench.patchAll_eq (c := t.candidate first) hfirst later
    · rw [hc]
      have hread := Workbench.readField_eq hlast
      rwa [t.nonce_candidate last] at hread
  · intro t t' h
    refine ⟨h.candidate_eq, fun b host plan => ⟨?_, ?_, ?_, ?_⟩⟩
    · intro actions
      rw [Sweep.Performs, Sweep.Performs, h.start_eq]
    · intro schedule
      rw [Sweep.run, Sweep.run, h.start_eq]
    · rw [ProfileCheck.run, ProfileCheck.run, h.candidate_eq]
    · intro shared strategy bounds index ledger
      exact h.relay_eq shared strategy bounds index ledger

/-- Two templates of six bytes that agree outside the field, and three nonces for the first. -/
theorem two_templates_around_one_field :
    let t : Template := ⟨⟨#[1, 2, 3, 4, 5, 6]⟩, 1, by decide⟩
    let t' : Template := ⟨⟨#[1, 9, 9, 9, 9, 6]⟩, 1, by decide⟩
    let b := Backend.bundled .standard .sequential
    t.bytes.size < UInt64.size ∧ accepts t.bytes 1 = true ∧ AgreesOutsideField t t' ∧
    (do Workbench.patchAll 1 [7, 0x01020304] (← Workbench.make t.bytes 1 5)) =
      .done ⟨t.bytes, ⟨#[1, 4, 3, 2, 1, 6]⟩⟩ ∧
    (t.candidate 7).bytes ≠ (t.candidate 8).bytes ∧
    Sweep.run b Sweep.plainHost Pool.inTurn Sweep.smallPlan t =
      Sweep.run b Sweep.plainHost Pool.inTurn Sweep.smallPlan t' := by
  intro t t' b
  have hsize : t.bytes.size < UInt64.size := by decide
  have hagrees : AgreesOutsideField t t' := by
    refine ⟨rfl, rfl, fun i hi => ?_⟩
    by_cases hend : i < 6
    · obtain rfl | rfl : i = 0 ∨ i = 5 := by
        simp only [t, nonceSize] at hi
        omega
      · rfl
      · rfl
    · have hbeyond (bytes : ByteArray) (hbytes : bytes.size = 6) : byteAt bytes i = 0 :=
        dif_neg (by omega)
      rw [hbeyond _ rfl, hbeyond _ rfl]
  obtain ⟨hmake, hpatch, hnonce, htemplates⟩ := candidates_patch_the_field
  obtain ⟨-, -, haccepts⟩ := hmake t.bytes 1
  obtain ⟨-, -, hmemory⟩ := hpatch t 5 [7, 0x01020304]
  obtain ⟨-, hsweeps⟩ := htemplates t t' hagrees
  refine ⟨hsize, (haccepts hsize).mpr ⟨t, rfl⟩, hagrees, (hmemory hsize).1, ?_, ?_⟩
  · intro hequal
    exact absurd (hnonce t 7 8 hequal) (by decide)
  · exact (hsweeps b Sweep.plainHost Sweep.smallPlan).2.1 Pool.inTurn

end NonceSweep
