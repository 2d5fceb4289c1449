import NonceSweep.Text.Numeral
import Mathlib.Tactic.Ring

/-!
# Numerals, read and written

Reading a numeral goes from left to right and stops at the first fault, so that a number too large for a
word is noticed at the digit with which it becomes too large. What comes of it can be said without the
loop: the value of a text of digits is that of positional notation, and a numeral is too large exactly if
some front part of it is a text of digits with a value above the bound.

## Contents

- `digit?_eq_some_iff`: the digits
- `valueOf?`: positional notation
- `Exceeds`: texts that begin with digits for too large a number
- `IsNumeral`, `natural_eq_ok_iff`: what is accepted
- `Refuses`, `natural_eq_error_iff`: what is wrong with the rest
- `exists_refuses_iff`: what is said about it
- `natural_toDigits`: what was written is read back
-/

namespace NonceSweep.Text.Numeral

/-! ## Digits -/

/-- The digits below sixteen are those that numerals are written with, in either case. -/
theorem digitValue?_eq_some_iff {d : Nat} (hd : d < 16) (c : Char) :
    digitValue? c = some d ↔ c.toLower = Nat.digitChar d := by
  by_cases hc : c.toNat < 128
  · have hcheck : ∀ n < 128, ∀ d < 16,
        digitValue? (Char.ofNat n) = some d ↔ (Char.ofNat n).toLower = Nat.digitChar d := by
      decide +kernel
    simpa using hcheck c.toNat hc d hd
  · -- beyond the first 128 characters there is no digit, and no letter with a lower case here
    have hascii : ∀ d < 16, (Nat.digitChar d).toNat < 128 := by decide
    have hfar (limit : Char) (hlimit : limit.toNat < 128) : ¬ c ≤ limit := by
      intro hle
      have hnat : c.toNat ≤ limit.toNat := UInt32.le_iff_toNat_le.mp hle
      omega
    have hnone : digitValue? c = none := by
      simp only [digitValue?]
      rw [if_neg (fun h => hfar '9' (by decide) h.2), if_neg (fun h => hfar 'z' (by decide) h.2),
        if_neg (fun h => hfar 'Z' (by decide) h.2)]
    have hlower : c.toLower = c := by
      unfold Char.toLower
      exact dif_neg fun h => hfar 'Z' (by decide) h.2
    rw [hnone, hlower]
    refine ⟨fun h => by simp at h, ?_⟩
    rintro rfl
    exact absurd (hascii d hd) hc

/-- The digits of notation to a base of at most sixteen. -/
theorem digit?_eq_some_iff {radix : Nat} (hradix : radix ≤ 16) (c : Char) (d : Nat) :
    digit? radix c = some d ↔ d < radix ∧ c.toLower = Nat.digitChar d := by
  simp only [digit?, Option.filter_eq_some_iff, decide_eq_true_eq]
  constructor
  · rintro ⟨hvalue, hd⟩
    exact ⟨hd, (digitValue?_eq_some_iff (by omega) c).mp hvalue⟩
  · rintro ⟨hd, hlower⟩
    exact ⟨(digitValue?_eq_some_iff (by omega) c).mpr hlower, hd⟩

variable (radix : Nat)

/-! ## Positional notation -/

/-- The value of a text of digits: each counts as often as the digits behind it have values. -/
def valueOf? : List Char → Option Nat
  | [] => some 0
  | c :: rest => do
    let d ← digit? radix c
    let n ← valueOf? rest
    return d * radix ^ rest.length + n

theorem valueOf?_cons_eq_some {c : Char} {rest : List Char} {n : Nat} :
    valueOf? radix (c :: rest) = some n ↔ ∃ d m, digit? radix c = some d ∧
      valueOf? radix rest = some m ∧ d * radix ^ rest.length + m = n := by
  simp [valueOf?, Option.bind_eq_some_iff]

theorem valueOf?_append (front behind : List Char) :
    valueOf? radix (front ++ behind) = (do
      let m ← valueOf? radix front
      let n ← valueOf? radix behind
      return m * radix ^ behind.length + n) := by
  induction front with
  | nil => simp [valueOf?]
  | cons c front ih =>
    simp only [List.cons_append, valueOf?, ih]
    cases digit? radix c with
    | none => rfl
    | some d =>
      cases valueOf? radix front with
      | none => rfl
      | some m =>
        cases valueOf? radix behind with
        | none => rfl
        | some n =>
          simp [pow_add]
          ring

variable {radix} in
/-- A front part of a text of digits is one too, and its value is not greater. -/
theorem valueOf?_of_isPrefix (hradix : 0 < radix) {front text : List Char} (hfront : front <+: text)
    {n : Nat} (hn : valueOf? radix text = some n) : ∃ m, valueOf? radix front = some m ∧ m ≤ n := by
  obtain ⟨behind, rfl⟩ := hfront
  rw [valueOf?_append] at hn
  obtain ⟨m, hm, hrest⟩ := Option.bind_eq_some_iff.mp hn
  obtain ⟨k, -, hk⟩ := Option.bind_eq_some_iff.mp hrest
  refine ⟨m, hm, ?_⟩
  rw [← Option.some.inj hk]
  exact Nat.le_add_right_of_le (Nat.le_mul_of_pos_right m (Nat.pow_pos hradix))

/-! ## The loop -/

/-- Some front part of a text is a text of digits that stands for more than the greatest number. -/
def Exceeds (greatest : Nat) (text : List Char) : Prop :=
  ∃ front n, front <+: text ∧ valueOf? radix front = some n ∧ greatest < n

variable {radix} {greatest : Nat} {overflow : Fault}

/-- Behind digits of value `value`, a front part of digits that leads above the bound is where reading ends. -/
theorem digits_of_front {text : List Char} {value : Nat} (hvalue : value ≤ greatest)
    (h : ∃ front n, front <+: text ∧ valueOf? radix front = some n ∧
      greatest < value * radix ^ front.length + n) :
    digits radix greatest overflow text value = .error overflow := by
  obtain ⟨front, n, hfront, hn, hgreater⟩ := h
  induction text generalizing value front n with
  | nil =>
    -- there is no front part but the empty one, and the value so far is not above the bound
    obtain rfl := List.prefix_nil.mp hfront
    obtain rfl : 0 = n := by simpa [valueOf?] using hn
    simp at hgreater
    omega
  | cons c rest ih =>
    cases front with
    | nil =>
      obtain rfl : 0 = n := by simpa [valueOf?] using hn
      simp at hgreater
      omega
    | cons c' front =>
      obtain ⟨rfl, hrest⟩ := List.cons_prefix_cons.mp hfront
      obtain ⟨d, m, hd, hm, rfl⟩ := (valueOf?_cons_eq_some radix).mp hn
      simp only [digits, hd]
      split
      · rename_i hle
        refine ih hle front m hrest hm ?_
        have hshift : (value * radix + d) * radix ^ front.length + m =
            value * radix ^ (c' :: front).length + (d * radix ^ front.length + m) := by
          rw [List.length_cons, pow_succ]
          ring
        rw [hshift]
        exact hgreater
      · rfl

/-- If no front part leads above the bound, the text is read to its end or to the first that is no digit. -/
theorem digits_of_no_front {text : List Char} {value : Nat}
    (h : ∀ front n, front <+: text → valueOf? radix front = some n →
      value * radix ^ front.length + n ≤ greatest) :
    digits radix greatest overflow text value =
      match valueOf? radix text with
      | some n => .ok (value * radix ^ text.length + n)
      | none => .error .invalidDigit := by
  induction text generalizing value with
  | nil => simp [digits, valueOf?]
  | cons c rest ih =>
    cases hd : digit? radix c with
    | none => simp [digits, valueOf?, hd]
    | some d =>
      have hfirst : value * radix + d ≤ greatest := by
        simpa using h [c] d (by simp) (by simp [valueOf?, hd])
      have hrest : ∀ front n, front <+: rest → valueOf? radix front = some n →
          (value * radix + d) * radix ^ front.length + n ≤ greatest := by
        intro front n hfront hn
        have hmore := h (c :: front) (d * radix ^ front.length + n)
          (List.cons_prefix_cons.mpr ⟨rfl, hfront⟩)
          ((valueOf?_cons_eq_some radix).mpr ⟨d, n, hd, hn, rfl⟩)
        rw [List.length_cons, pow_succ] at hmore
        calc (value * radix + d) * radix ^ front.length + n
            = value * (radix ^ front.length * radix) + (d * radix ^ front.length + n) := by ring
          _ ≤ greatest := hmore
      simp only [digits, hd, if_pos hfirst, ih hrest, valueOf?]
      cases valueOf? radix rest with
      | none => rfl
      | some n =>
        simp [pow_succ]
        ring

theorem digits_of_exceeds {text : List Char} (h : Exceeds radix greatest text) :
    digits radix greatest overflow text 0 = .error overflow := by
  obtain ⟨front, n, hfront, hn, hgreater⟩ := h
  exact digits_of_front (Nat.zero_le _) ⟨front, n, hfront, hn, by simpa using hgreater⟩

theorem digits_of_not_exceeds {text : List Char} (h : ¬ Exceeds radix greatest text) :
    digits radix greatest overflow text 0 =
      match valueOf? radix text with
      | some n => .ok n
      | none => .error .invalidDigit := by
  have hle (front : List Char) (n : Nat) (hfront : front <+: text) (hn : valueOf? radix front = some n) :
      0 * radix ^ front.length + n ≤ greatest := by
    rw [Nat.zero_mul, Nat.zero_add]
    exact Nat.le_of_not_lt fun hgreater => h ⟨front, n, hfront, hn, hgreater⟩
  rw [digits_of_no_front hle]
  simp only [Nat.zero_mul, Nat.zero_add]

theorem not_exceeds {text : List Char} {n : Nat} (hradix : 0 < radix)
    (hn : valueOf? radix text = some n) (hle : n ≤ greatest) : ¬ Exceeds radix greatest text := by
  rintro ⟨front, m, hfront, hm, hgreater⟩
  obtain ⟨m', hm', hle'⟩ := valueOf?_of_isPrefix hradix hfront hn
  obtain rfl : m = m' := Option.some.inj (hm.symm.trans hm')
  omega

theorem digits_eq_ok_iff {text : List Char} {n : Nat} (hradix : 0 < radix) :
    digits radix greatest overflow text 0 = .ok n ↔ valueOf? radix text = some n ∧ n ≤ greatest := by
  by_cases h : Exceeds radix greatest text
  · simp only [digits_of_exceeds h, reduceCtorEq, false_iff]
    rintro ⟨hn, hle⟩
    exact not_exceeds hradix hn hle h
  · rw [digits_of_not_exceeds h]
    cases hvalue : valueOf? radix text with
    | none => simp
    | some m =>
      have hle : m ≤ greatest :=
        Nat.le_of_not_lt fun hgreater => h ⟨text, m, List.prefix_refl text, hvalue, hgreater⟩
      simp only [Except.ok.injEq, Option.some.injEq]
      exact ⟨fun hmn => ⟨hmn, hmn ▸ hle⟩, fun hmn => hmn.1⟩

/-! ## Numerals -/

/-- A numeral without the sign in front of it; a sign with nothing behind it is not taken for one. -/
def unsigned : List Char → List Char
  | '+' :: c :: rest => c :: rest
  | numeral => numeral

theorem unsigned_ne_nil {numeral : List Char} (h : numeral ≠ []) : unsigned numeral ≠ [] := by
  unfold unsigned
  split
  · exact List.cons_ne_nil _ _
  · exact h

theorem natural_eq {numeral : List Char} (hnumeral : numeral ≠ []) :
    natural radix greatest numeral = digits radix greatest .tooLarge (unsigned numeral) 0 := by
  obtain ⟨c, rest, rfl⟩ := List.exists_cons_of_ne_nil hnumeral
  by_cases hsign : c = '+'
  · subst hsign
    cases rest with
    | nil => simp [natural, unsigned, digits, digit?, digitValue?]
    | cons c rest => rfl
  · have hunsigned : unsigned (c :: rest) = c :: rest := by
      unfold unsigned
      split <;> simp_all
    simp [natural, hsign, hunsigned]

/-- The sign is no digit, so what a text of digits is the numeral of has at most one. -/
theorem unsigned_eq_iff {numeral text : List Char} {n : Nat} (htext : text ≠ [])
    (hn : valueOf? radix text = some n) :
    unsigned numeral = text ↔ numeral = text ∨ numeral = '+' :: text := by
  obtain ⟨c, rest, rfl⟩ := List.exists_cons_of_ne_nil htext
  have hsign : c ≠ '+' := by
    rintro rfl
    obtain ⟨d, m, hd, -⟩ := (valueOf?_cons_eq_some radix).mp hn
    simp [digit?, digitValue?] at hd
  unfold unsigned
  split
  · rename_i c' rest'
    simp [hsign.symm]
  · rename_i hno
    constructor
    · exact Or.inl
    · rintro (rfl | rfl)
      · rfl
      · exact absurd rfl (hno c rest)

/-- The numerals of a number: digits, at least one, with a `+` in front or without. -/
def IsNumeral (radix greatest : Nat) (numeral : List Char) (n : Nat) : Prop :=
  ∃ text, text ≠ [] ∧ (numeral = text ∨ numeral = '+' :: text) ∧
    valueOf? radix text = some n ∧ n ≤ greatest

/-- What is wrong with a text that is no numeral. A number that is too large is found before a character
    that is no digit if it stands before it. -/
def Refuses (radix greatest : Nat) (numeral : List Char) : Fault → Prop
  | .empty => numeral = []
  | .tooLarge => Exceeds radix greatest (unsigned numeral)
  | .invalidDigit => numeral ≠ [] ∧ ¬ Exceeds radix greatest (unsigned numeral) ∧
      ∀ n, ¬ IsNumeral radix greatest numeral n
  | .tooSmall => False

/-- **What is read as a number.** -/
theorem natural_eq_ok_iff (hradix : 0 < radix) {numeral : List Char} {n : Nat} :
    natural radix greatest numeral = .ok n ↔ IsNumeral radix greatest numeral n := by
  by_cases hnumeral : numeral = []
  · subst hnumeral
    simp only [natural, reduceCtorEq, false_iff]
    rintro ⟨text, htext, hform | hform, -⟩
    · exact htext hform.symm
    · simp at hform
  · rw [natural_eq hnumeral, digits_eq_ok_iff hradix]
    constructor
    · rintro ⟨hn, hle⟩
      have htext := unsigned_ne_nil hnumeral
      exact ⟨unsigned numeral, htext, (unsigned_eq_iff htext hn).mp rfl, hn, hle⟩
    · rintro ⟨text, htext, hform, hn, hle⟩
      rw [(unsigned_eq_iff htext hn).mpr hform]
      exact ⟨hn, hle⟩

/-- The three faults in words. There is no number below the least one here, so that the fourth never arises. -/
theorem exists_refuses_iff {numeral : List Char} {reason : String} :
    (∃ fault, Refuses radix greatest numeral fault ∧ reason = fault.message) ↔
      (Refuses radix greatest numeral .empty ∧ reason = "cannot parse integer from empty string") ∨
      (Refuses radix greatest numeral .tooLarge ∧ reason = "number too large to fit in target type") ∨
      (Refuses radix greatest numeral .invalidDigit ∧ reason = "invalid digit found in string") := by
  constructor
  · rintro ⟨fault, hrefuses, hreason⟩
    cases fault with
    | empty => exact Or.inl ⟨hrefuses, hreason⟩
    | tooLarge => exact Or.inr (Or.inl ⟨hrefuses, hreason⟩)
    | invalidDigit => exact Or.inr (Or.inr ⟨hrefuses, hreason⟩)
    | tooSmall => exact hrefuses.elim
  · rintro (⟨hrefuses, hreason⟩ | ⟨hrefuses, hreason⟩ | ⟨hrefuses, hreason⟩)
    · exact ⟨.empty, hrefuses, hreason⟩
    · exact ⟨.tooLarge, hrefuses, hreason⟩
    · exact ⟨.invalidDigit, hrefuses, hreason⟩

theorem not_exceeds_nil : ¬ Exceeds radix greatest [] := by
  rintro ⟨front, n, hfront, hn, hgreater⟩
  obtain rfl := List.prefix_nil.mp hfront
  obtain rfl : 0 = n := by simpa [valueOf?] using hn
  omega

/-- **What is wrong with the rest.** -/
theorem natural_eq_error_iff (hradix : 0 < radix) {numeral : List Char} {fault : Fault} :
    natural radix greatest numeral = .error fault ↔ Refuses radix greatest numeral fault := by
  by_cases hnumeral : numeral = []
  · subst hnumeral
    have hunsigned : unsigned [] = [] := rfl
    cases fault <;> simp [natural, Refuses, hunsigned, not_exceeds_nil]
  · have hok (n : Nat) : natural radix greatest numeral = .ok n ↔ IsNumeral radix greatest numeral n :=
      natural_eq_ok_iff hradix
    rw [natural_eq hnumeral] at hok ⊢
    by_cases hexceeds : Exceeds radix greatest (unsigned numeral)
    · rw [digits_of_exceeds hexceeds]
      cases fault <;> simp [Refuses, hnumeral, hexceeds]
    · rw [digits_of_not_exceeds hexceeds] at hok ⊢
      cases hvalue : valueOf? radix (unsigned numeral) with
      | none => cases fault <;> simp_all [Refuses]
      | some n =>
        rw [hvalue] at hok
        have hnumber : IsNumeral radix greatest numeral n := (hok n).mp rfl
        cases fault <;> simp [Refuses, hnumeral, hexceeds]
        exact ⟨n, hnumber⟩

/-! ## Reading what was written -/

theorem valueOf?_toDigits {radix : Nat} (hradix : 1 < radix) (hradix' : radix ≤ 16) (n : Nat) :
    valueOf? radix (Nat.toDigits radix n) = some n := by
  have hdigit {d : Nat} (hd : d < radix) : digit? radix (Nat.digitChar d) = some d := by
    have hlower : ∀ d < 16, (Nat.digitChar d).toLower = Nat.digitChar d := by decide
    exact (digit?_eq_some_iff hradix' _ d).mpr ⟨hd, hlower d (by omega)⟩
  induction n using Nat.strongRecOn with
  | ind n ih =>
    rw [Nat.toDigits_eq_if hradix]
    split
    · rename_i hlt
      simp [valueOf?, hdigit hlt]
    · rename_i hle
      have hmod : n % radix < radix := Nat.mod_lt n (by omega)
      have hless : n / radix < n := Nat.div_lt_self (by omega) hradix
      simp only [valueOf?_append, ih (n / radix) hless, valueOf?, hdigit hmod]
      simp [Nat.div_add_mod']

/-- The numeral of a number is read as this number. -/
theorem natural_toDigits {radix : Nat} (hradix : 1 < radix) (hradix' : radix ≤ 16) {n : Nat}
    (hn : n ≤ greatest) : natural radix greatest (Nat.toDigits radix n) = .ok n :=
  (natural_eq_ok_iff (by omega)).mpr
    ⟨Nat.toDigits radix n, Nat.toDigits_ne_nil, Or.inl rfl, valueOf?_toDigits hradix hradix' n, hn⟩

/-- A numeral is written with digits. -/
theorem mem_toDigits {radix : Nat} (hradix : 1 < radix) {n : Nat} {c : Char}
    (hc : c ∈ Nat.toDigits radix n) : ∃ d < radix, c = Nat.digitChar d := by
  induction n using Nat.strongRecOn with
  | ind n ih =>
    rw [Nat.toDigits_eq_if hradix] at hc
    split at hc
    · rename_i hlt
      exact ⟨n, hlt, List.mem_singleton.mp hc⟩
    · rename_i hle
      rcases List.mem_append.mp hc with hfront | hlast
      · exact ih (n / radix) (Nat.div_lt_self (by omega) hradix) hfront
      · exact ⟨n % radix, Nat.mod_lt n (by omega), List.mem_singleton.mp hlast⟩

end NonceSweep.Text.Numeral
