import NonceSweep.Engine.Keystream
import Mathlib.Logic.Function.Iterate

/-!
# What the keystream writes

The loop that fills a memory is described block by block: cell `q` of the stream is reached by `q + 1`
expansions from the starting cell of the seed, and block `i` of a filled memory is made of the cells
`4 * i` to `4 * i + 3`. Nothing of what the memory held before is left.

## Main results

- `Keystream.getElem_fill`: the content of a filled memory, block by block
- `Keystream.fill_eq_fill`: two memories filled from one seed are equal
-/

namespace NonceSweep.Engine.Keystream

variable (p : Primitives)

/-! ## The cells of the stream -/

/-- The cell that `count` expansions lead to. -/
def cellAfter (key state : Cell) (count : Nat) : Cell :=
  (fun s => expand p s key)^[count] state

/-- The block that the four cells after `count` expansions make. -/
def blockAfter (key state : Cell) (count : Nat) : Block :=
  Block.ofCells (cellAfter p key state (count + 1)) (cellAfter p key state (count + 2))
    (cellAfter p key state (count + 3)) (cellAfter p key state (count + 4))

theorem cellAfter_succ (key state : Cell) (count : Nat) :
    cellAfter p key state (count + 1) = expand p (cellAfter p key state count) key :=
  Function.iterate_succ_apply' _ _ _

/-- One turn of the loop makes the next block of the stream and moves on by four cells. -/
theorem nextBlock_cellAfter (key state : Cell) (count : Nat) :
    nextBlock p key (cellAfter p key state count) =
      (blockAfter p key state count, cellAfter p key state (count + 4)) := by
  simp only [nextBlock, blockAfter, cellAfter_succ]

/-! ## Filled memories -/

/-- The loop from block `i` on: it keeps the blocks below `i` and writes the stream to all others. -/
theorem getElem_fillFrom {n : Nat} (key start : Cell) (memory : Vector Block n) (i j : Nat)
    (hj : j < n) :
    (fillFrom p key memory i (cellAfter p key start (4 * i)))[j] =
      if j < i then memory[j] else blockAfter p key start (4 * j) := by
  -- by induction on the number of blocks that are still to be written
  induction hleft : n - i generalizing memory i with
  | zero =>
    -- the loop has ended, and all blocks are below `i`
    have hdone : ¬ i < n := by omega
    have hbelow : j < i := by omega
    rw [fillFrom, dif_neg hdone, if_pos hbelow]
  | succ left ih =>
    have hmore : i < n := by omega
    rw [fillFrom, dif_pos hmore, nextBlock_cellAfter]
    -- the rest of the loop keeps block `i`, which this turn has written
    have hrest := ih (memory.set i (blockAfter p key start (4 * i))) (i + 1) (by omega)
    rw [Nat.mul_succ] at hrest
    rw [hrest, Vector.getElem_set]
    rcases Nat.lt_trichotomy j i with hlt | heq | hgt
    · rw [if_pos (by omega : j < i + 1), if_neg (by omega : ¬ i = j), if_pos hlt]
    · subst heq
      rw [if_pos (by omega : j < j + 1), if_pos rfl, if_neg (by omega : ¬ j < j)]
    · rw [if_neg (by omega : ¬ j < i + 1), if_neg (by omega : ¬ j < i)]

/-- Block `i` of a filled memory. Neither the memory nor its size has a part in it. -/
theorem getElem_fill {n : Nat} (memory : Vector Block n) (seed : Digest) (i : Nat) (hi : i < n) :
    (fill p memory seed)[i] = blockAfter p seed.front seed.back (4 * i) := by
  have hloop := getElem_fillFrom p seed.front seed.back memory 0 i hi
  rw [if_neg (Nat.not_lt_zero i)] at hloop
  exact hloop

/-- Nothing is left of what a memory held before it was filled. -/
theorem fill_eq_fill {n : Nat} (memory memory' : Vector Block n) (seed : Digest) :
    fill p memory seed = fill p memory' seed := by
  apply Vector.ext
  intro i hi
  rw [getElem_fill p memory seed i hi, getElem_fill p memory' seed i hi]

end NonceSweep.Engine.Keystream
