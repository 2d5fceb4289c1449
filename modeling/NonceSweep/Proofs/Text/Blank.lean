import NonceSweep.Text.Blank

/-!
# What trimming leaves

Trimming takes away blank characters at the two ends of a text, and nothing else: what is left begins and
ends with characters that are not blank, if there is anything left, and what was taken away is blank.

## Main results

- `trim_stripped`: trimming does this to every text
- `trim_of_not_blank`: a text without blank characters is left as it is
-/

namespace NonceSweep.Text

/-- What is left of a text when the blank characters at its two ends are taken away. -/
structure Stripped (text rest : List Char) : Prop where
  /-- Only blank characters are taken away. -/
  split : ∃ before behind, text = before ++ rest ++ behind ∧
    (∀ c ∈ before, isBlank c = true) ∧ ∀ c ∈ behind, isBlank c = true
  /-- None are left in front. -/
  head : ∀ c ∈ rest.head?, isBlank c = false
  /-- None are left at the end. -/
  last : ∀ c ∈ rest.getLast?, isBlank c = false

theorem of_mem_head?_dropWhile {text : List Char} {c : Char}
    (hc : c ∈ (text.dropWhile isBlank).head?) : isBlank c = false := by
  have hhead := List.head?_dropWhile_not isBlank text
  rw [Option.mem_def] at hc
  rw [hc] at hhead
  simpa using hhead

theorem trim_stripped (text : List Char) : Stripped text (trim text) := by
  -- the text behind its blank front, turned round so that the end is the front
  let turned := (text.dropWhile isBlank).reverse
  have hrest : trim text = (turned.dropWhile isBlank).reverse := rfl
  have hturned : text.dropWhile isBlank =
      (turned.dropWhile isBlank).reverse ++ (turned.takeWhile isBlank).reverse := by
    rw [← List.reverse_append, List.takeWhile_append_dropWhile, List.reverse_reverse]
  have hblank (l : List Char) : ∀ c ∈ l.takeWhile isBlank, isBlank c = true := by
    intro c hc
    exact List.all_eq_true.mp List.all_takeWhile c hc
  refine ⟨⟨text.takeWhile isBlank, (turned.takeWhile isBlank).reverse, ?_, hblank text, ?_⟩, ?_, ?_⟩
  · rw [List.append_assoc, hrest, ← hturned, List.takeWhile_append_dropWhile]
  · intro c hc
    exact hblank turned c (List.mem_reverse.mp hc)
  · intro c hc
    rw [hrest] at hc
    have hfront : c ∈ (text.dropWhile isBlank).head? := by
      rw [hturned, Option.mem_def, List.head?_append, Option.mem_def.mp hc, Option.some_or]
    exact of_mem_head?_dropWhile hfront
  · intro c hc
    rw [hrest, List.getLast?_reverse] at hc
    exact of_mem_head?_dropWhile hc

theorem dropWhile_of_not_blank {text : List Char} (h : ∀ c ∈ text, isBlank c = false) :
    text.dropWhile isBlank = text := by
  cases text with
  | nil => rfl
  | cons c rest => simp [h c List.mem_cons_self]

theorem trim_of_not_blank {text : List Char} (h : ∀ c ∈ text, isBlank c = false) : trim text = text := by
  have hreverse : ∀ c ∈ text.reverse, isBlank c = false := fun c hc => h c (List.mem_reverse.mp hc)
  rw [trim, dropWhile_of_not_blank h, dropWhile_of_not_blank hreverse, List.reverse_reverse]

end NonceSweep.Text
