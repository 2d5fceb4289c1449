import Mathlib.Data.List.TakeWhile
import Mathlib.Tactic.Common

/-!
# Reading JSON objects

A reader of objects whose members are texts, numbers and lists of numbers. It knows nothing of lines or of the
order of members: blank characters may stand between any two tokens, a text ends at the next quote, and a
number ends at the first character that cannot belong to one. Texts with escapes are not read.

Tokens are read back from any text that is put together of pieces with their tokens: a text between quotes, a
mark, and a number with what ends it. Members are read back from any text whose tokens are those of an object.

## Main results

- `read`: the members of an object
- `Lexes`: pieces of a text and their tokens, whatever comes behind
- `read_of_lexes`: a text with the tokens of some members is read as these members
-/

namespace NonceSweep.Text.Json

/-! ## Tokens -/

inductive Token where
  | mark (c : Char)
  | text (body : List Char)
  | number (numeral : List Char)
deriving DecidableEq, Repr

/-- Characters that may stand between tokens. -/
def isGap (c : Char) : Bool := c = ' ' || c = '\n' || c = '\t' || c = '\r'

/-- Characters that are tokens of their own. -/
def isMark (c : Char) : Bool :=
  c = '\x7b' || c = '\x7d' || c = '[' || c = ']' || c = ':' || c = ','

/-- Characters that a number begins with. -/
def beginsNumber (c : Char) : Bool := c.isDigit || c = '-'

/-- Characters that belong to a number. -/
def isNumeric (c : Char) : Bool := beginsNumber c || c = '.' || c = 'e' || c = 'E' || c = '+'

/-- The tokens of a text. -/
def lex : List Char → Option (List Token)
  | [] => some []
  | c :: rest =>
    if isGap c then lex rest
    else if isMark c then (lex rest).map (.mark c :: ·)
    else if beginsNumber c then
      (lex (rest.dropWhile isNumeric)).map (.number (c :: rest.takeWhile isNumeric) :: ·)
    else if c = '"' then
      let body := rest.takeWhile (· ≠ '"')
      if '\\' ∈ body ∨ '"' ∉ rest then none
      else (lex (rest.dropWhile (· ≠ '"')).tail).map (.text body :: ·)
    else none
termination_by text => text.length
decreasing_by
  all_goals simp only [List.length_cons, List.length_tail]
  · omega
  · omega
  · exact Nat.lt_succ_of_le (List.length_dropWhile_le isNumeric rest)
  · exact Nat.lt_succ_of_le (Nat.le_trans (Nat.sub_le _ _) (List.length_dropWhile_le _ rest))

/-! ## Members -/

inductive Value where
  | text (body : List Char)
  | number (numeral : List Char)
  | list (numerals : List (List Char))
deriving DecidableEq, Repr

/-- A value and its name. -/
abbrev Member : Type := List Char × Value

mutual

/-- The members of an object, the first of which comes next. -/
def members : List Token → Option (List Member)
  | .text name :: .mark ':' :: .text body :: rest => others (name, .text body) rest
  | .text name :: .mark ':' :: .number numeral :: rest => others (name, .number numeral) rest
  | .text name :: .mark ':' :: .mark '[' :: .mark ']' :: rest => others (name, .list []) rest
  | .text name :: .mark ':' :: .mark '[' :: rest => elements name [] rest
  | _ => none

/-- A member that has been read and those that follow it. -/
def others (member : Member) : List Token → Option (List Member)
  | .mark ',' :: rest => (members rest).map (member :: ·)
  | [.mark '\x7d'] => some [member]
  | _ => none

/-- The members from one on whose value is a list of which the front has been read. -/
def elements (name : List Char) (front : List (List Char)) : List Token → Option (List Member)
  | .number numeral :: .mark ',' :: rest => elements name (front ++ [numeral]) rest
  | .number numeral :: .mark ']' :: rest => others (name, .list (front ++ [numeral])) rest
  | _ => none

end

/-- The members of an object. -/
def object : List Token → Option (List Member)
  | [.mark '\x7b', .mark '\x7d'] => some []
  | .mark '\x7b' :: rest => members rest
  | _ => none

/-- Reads an object. -/
def read (text : List Char) : Option (List Member) := (lex text).bind object

/-! ## Pieces of a text -/

theorem lex_gap {c : Char} (hc : isGap c = true) (rest : List Char) : lex (c :: rest) = lex rest := by
  rw [lex, if_pos hc]

theorem lex_mark {c : Char} (hc : isMark c = true) (rest : List Char) :
    lex (c :: rest) = (lex rest).map (.mark c :: ·) := by
  have hgap : ¬ isGap c = true := by
    intro hgap
    simp only [isGap, isMark, Bool.or_eq_true, decide_eq_true_eq] at hgap hc
    rcases hgap with ((rfl | rfl) | rfl) | rfl <;> simp at hc
  rw [lex, if_neg hgap, if_pos hc]

/-- A number ends where a character comes that cannot belong to it. -/
theorem lex_number {c : Char} {numeral rest : List Char} (hc : beginsNumber c = true)
    (hnumeral : ∀ d ∈ numeral, isNumeric d = true) (hrest : ∀ d ∈ rest.head?, isNumeric d = false) :
    lex (c :: (numeral ++ rest)) = (lex rest).map (.number (c :: numeral) :: ·) := by
  have hgap : ¬ isGap c = true := by
    intro hgap
    simp only [isGap, Bool.or_eq_true, decide_eq_true_eq] at hgap
    rcases hgap with ((rfl | rfl) | rfl) | rfl <;> simp [beginsNumber, Char.isDigit] at hc
  have hmark : ¬ isMark c = true := by
    intro hmark
    simp only [isMark, Bool.or_eq_true, decide_eq_true_eq] at hmark
    rcases hmark with ((((rfl | rfl) | rfl) | rfl) | rfl) | rfl <;>
      simp [beginsNumber, Char.isDigit] at hc
  have hend : rest.takeWhile isNumeric = [] ∧ rest.dropWhile isNumeric = rest := by
    cases rest with
    | nil => exact ⟨rfl, rfl⟩
    | cons d rest =>
      have hd : isNumeric d = false := hrest d rfl
      simp [hd]
  have htake : (numeral ++ rest).takeWhile isNumeric = numeral := by
    rw [List.takeWhile_append_of_pos hnumeral, hend.1, List.append_nil]
  have hdrop : (numeral ++ rest).dropWhile isNumeric = rest := by
    rw [List.dropWhile_append_of_pos hnumeral, hend.2]
  rw [lex, if_neg hgap, if_neg hmark, if_pos hc, htake, hdrop]

/-- A text ends at the next quote. -/
theorem lex_text {body : List Char} (hquote : '"' ∉ body) (hescape : '\\' ∉ body) (rest : List Char) :
    lex ('"' :: (body ++ '"' :: rest)) = (lex rest).map (.text body :: ·) := by
  have hbody : ∀ c ∈ body, decide (c ≠ '"') = true := by
    intro c hc
    exact decide_eq_true fun heq => hquote (heq ▸ hc)
  have htake : (body ++ '"' :: rest).takeWhile (· ≠ '"') = body := by
    rw [List.takeWhile_append_of_pos hbody]
    simp
  have hdrop : (body ++ '"' :: rest).dropWhile (· ≠ '"') = '"' :: rest := by
    rw [List.dropWhile_append_of_pos hbody]
    simp
  have hread : ¬ ('\\' ∈ body ∨ '"' ∉ body ++ '"' :: rest) := by
    rintro (habsurd | habsurd)
    · exact hescape habsurd
    · exact habsurd (List.mem_append_right _ List.mem_cons_self)
  rw [lex, if_neg (by decide), if_neg (by decide), if_neg (by decide), if_pos rfl]
  simp only [htake, hdrop, List.tail_cons]
  rw [if_neg hread]

/-- Characters that stand for certain tokens, whatever comes behind them. -/
def Lexes (characters : List Char) (tokens : List Token) : Prop :=
  ∀ rest, lex (characters ++ rest) = (lex rest).map (tokens ++ ·)

namespace Lexes

variable {characters characters' : List Char} {tokens tokens' : List Token}

theorem nil : Lexes [] [] := by
  intro rest
  simp

theorem append (h : Lexes characters tokens) (h' : Lexes characters' tokens') :
    Lexes (characters ++ characters') (tokens ++ tokens') := by
  intro rest
  rw [List.append_assoc, h, h', Option.map_map]
  congr 1
  funext later
  exact (List.append_assoc _ _ _).symm

theorem gap {c : Char} (hc : isGap c = true) : Lexes [c] [] := by
  intro rest
  rw [List.singleton_append, lex_gap hc]
  simp

theorem spaces (count : Nat) : Lexes (List.replicate count ' ') [] := by
  induction count with
  | zero => exact nil
  | succ count ih => exact (gap (by decide)).append ih

theorem mark {c : Char} (hc : isMark c = true) : Lexes [c] [.mark c] :=
  fun rest => lex_mark hc rest

theorem text {body : List Char} (hquote : '"' ∉ body) (hescape : '\\' ∉ body) :
    Lexes ('"' :: body ++ ['"']) [.text body] := by
  intro rest
  rw [List.cons_append, List.cons_append, List.append_assoc]
  exact lex_text hquote hescape rest

/-- A number together with what ends it. -/
theorem number {numeral ending : List Char} (hbegin : ∃ c ∈ numeral.head?, beginsNumber c = true)
    (hnumeral : ∀ d ∈ numeral, isNumeric d = true) (hend : ∃ d ∈ ending.head?, isNumeric d = false)
    (hending : Lexes ending tokens) : Lexes (numeral ++ ending) (.number numeral :: tokens) := by
  intro rest
  obtain ⟨c, hc, hbegin⟩ := hbegin
  obtain ⟨d, hd, hend⟩ := hend
  cases numeral with
  | nil => cases hc
  | cons c' numeral =>
    cases hc
    -- whatever comes behind, the number ends at the first character of its ending
    have hrest : ∀ d' ∈ (ending ++ rest).head?, isNumeric d' = false := by
      intro d' hd'
      rw [Option.mem_def, List.head?_append, Option.mem_def.mp hd] at hd'
      cases hd'
      exact hend
    have hnumeral' : ∀ d ∈ numeral, isNumeric d = true :=
      fun d hd => hnumeral d (List.mem_cons_of_mem _ hd)
    rw [List.append_assoc, List.cons_append, lex_number hbegin hnumeral' hrest, hending, Option.map_map]
    rfl

theorem lex_eq (h : Lexes characters tokens) : lex characters = some tokens := by
  have hall := h []
  rw [List.append_nil, lex, Option.map_some, List.append_nil] at hall
  exact hall

end Lexes

/-! ## Tokens of an object -/

def Value.tokens : Value → List Token
  | text body => [.text body]
  | number numeral => [.number numeral]
  | list numerals =>
    .mark '[' :: (List.intercalate [.mark ','] (numerals.map fun numeral => [.number numeral]) ++ [.mark ']'])

/-- The tokens of a member. -/
def memberTokens (m : Member) : List Token := .text m.1 :: .mark ':' :: m.2.tokens

/-- The tokens of an object. -/
def objectTokens (ms : List Member) : List Token :=
  .mark '\x7b' :: (List.intercalate [.mark ','] (ms.map memberTokens) ++ [.mark '\x7d'])

/-- The elements of a list are read to its end, by induction on those that are left. -/
theorem elements_eq (name numeral : List Char) (front numerals : List (List Char)) (rest : List Token) :
    elements name front (List.intercalate [.mark ','] ((numeral :: numerals).map fun n => [.number n]) ++
      .mark ']' :: rest) = others (name, .list (front ++ numeral :: numerals)) rest := by
  induction numerals generalizing numeral front with
  | nil => rfl
  | cons next numerals ih =>
    have hnext := ih next (front ++ [numeral])
    rw [List.append_assoc] at hnext
    exact hnext

/-- A member is read whatever its value is. -/
theorem members_eq (m : Member) (rest : List Token) :
    members (memberTokens m ++ rest) = others m rest := by
  obtain ⟨name, v⟩ := m
  cases v with
  | text body | number numeral => rfl
  | list numerals =>
    cases numerals with
    | nil => rfl
    | cons numeral numerals =>
      have helements := elements_eq name numeral [] numerals rest
      cases numerals <;> simpa [memberTokens, Value.tokens, members] using helements

/-- The members are read one after another, by induction on those that are left. -/
theorem members_intercalate (m : Member) (ms : List Member) :
    members (List.intercalate [.mark ','] ((m :: ms).map memberTokens) ++ [.mark '\x7d']) =
      some (m :: ms) := by
  induction ms generalizing m with
  | nil =>
    have honly : List.intercalate [.mark ','] ([m].map memberTokens) = memberTokens m := by
      simp [List.intercalate]
    rw [honly, members_eq]
    rfl
  | cons next ms ih =>
    have hfirst : List.intercalate [.mark ','] ((m :: next :: ms).map memberTokens) ++ [.mark '\x7d'] =
        memberTokens m ++ .mark ',' ::
          (List.intercalate [.mark ','] ((next :: ms).map memberTokens) ++ [.mark '\x7d']) := by
      simp [List.intercalate]
    rw [hfirst, members_eq, others, ih]
    rfl

theorem object_objectTokens (ms : List Member) : object (objectTokens ms) = some ms := by
  cases ms with
  | nil => rfl
  | cons m ms =>
    have hread := members_intercalate m ms
    rw [objectTokens, object]
    · exact hread
    · -- no member begins with the end of the object
      intro heq
      rw [heq] at hread
      cases hread

/-- **A text with the tokens of an object is read as the members of the object.** -/
theorem read_of_lexes {characters : List Char} {ms : List Member}
    (h : Lexes characters (objectTokens ms)) : read characters = some ms := by
  rw [read, h.lex_eq, Option.bind_some, object_objectTokens]

end NonceSweep.Text.Json
