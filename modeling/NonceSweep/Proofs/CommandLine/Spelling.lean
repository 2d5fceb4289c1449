import NonceSweep.Proofs.CommandLine.Switches
import NonceSweep.Proofs.Outcome.FingerprintText
import NonceSweep.Proofs.Work.MaskText

/-!
# How plans are spelled

A plan is spelled by a switch for each of its choices that is not the usual one, and by a text for each of
its numbers, which may be left out if the number is the usual one. Some words make no difference and may
stand among these. The order of the words does not matter, nor which name of a switch is taken, nor whether
a text is attached, nor which numeral of a number it is.

What such words have changed in the end is told by an invariant of the words that have been obeyed: the
switches that are on are those of the words, and a number is that of the plan from the word on that gives it.

## Main results

- `Spells`: the words that spell a plan
- `plans_are_spelled_and_read_back`: every good plan has a spelling, and all of them are read as the plan
-/

namespace NonceSweep.CommandLine

open Text (IsHexDigit)
open Text.Numeral (IsNumeral greatestWord)

/-! ## Switches of a plan -/

/-- The switches that a plan cannot be spelled without. -/
def Switch.isNeeded (p : Plan) : Switch → Bool
  | .mine => p.options.profile = .full
  | .jit => p.options.jit
  | .secure => p.options.secure
  | .largePages => p.options.largePages
  | .softAes => p.options.softAes
  | .ssse3 => p.options.kernel = .ssse3
  | .avx2 => p.options.kernel = .avx2
  | .noBatch => !p.strategy.batched
  | .commit => p.strategy.commits
  | .verify | .auto | .check | .json => false

/-- The switches that make no difference to a plan: the light profile may be confirmed, the slower of two
    kernels may be named besides, and two switches concern what is done apart from the sweep. -/
def Switch.isIdle (p : Plan) : Switch → Bool
  | .verify => p.options.profile = .light
  | .ssse3 => p.options.kernel = .avx2
  | .check | .json => true
  | _ => false

/-! ## Numbers of a plan -/

/-- The number that a plan has for a setting. An expected fingerprint is no part of a plan. -/
def Setting.valueIn (p : Plan) : Setting → Nat
  | .threads => p.threads.toNat
  | .affinity => p.affinity.toNat
  | .init => p.initThreads.toNat
  | .nonces => p.nonces.toNat
  | .seed => p.seed.toNat
  | .expect => 0

/-- The number that an invocation has for a setting. -/
def Setting.valueOf (i : Invocation) : Setting → Nat
  | .threads => i.threads.toNat
  | .affinity => i.affinity.toNat
  | .init => i.initThreads.toNat
  | .nonces => i.nonces.toNat
  | .seed => i.seed.toNat
  | .expect => 0

/-- The texts that stand for what a plan has for a setting. A mask may be hexadecimal, and an expected
    fingerprint may be any. -/
def Setting.Denotes (p : Plan) (text : String) : Setting → Prop
  | .affinity => ∃ radix numeral, WrittenIn (Text.trim text.toList) radix numeral ∧
      IsNumeral radix greatestWord numeral p.affinity.toNat
  | .expect => (Text.trim text.toList).length = 64 ∧ ∀ c ∈ Text.trim text.toList, IsHexDigit c
  | s => IsNumeral 10 greatestWord text.toList (s.valueIn p)

/-! ## Spellings -/

/-- Words that are true of a plan. -/
def Word.Suits (p : Plan) : Word → Prop
  | switch s name => s.Names name ∧ (s.isNeeded p ∨ s.isIdle p)
  | attached s text | apart s text => s.Denotes p text

/-- The words that spell a plan, in any order. -/
structure Spells (p : Plan) (words : List Word) : Prop where
  /-- No option is given twice. -/
  once : (words.map Word.choice).Nodup
  suits : ∀ w ∈ words, w.Suits p
  switches : ∀ s : Switch, s.isNeeded p → .switch s ∈ words.map Word.choice
  /-- Only the usual numbers may be left out. -/
  settings : ∀ s : Setting, s.valueIn p ≠ s.valueIn .standard → .setting s ∈ words.map Word.choice

theorem Spells.perm {p : Plan} {words words' : List Word} (h : Spells p words) (hperm : words.Perm words') :
    Spells p words' := by
  have hchoices := hperm.map Word.choice
  constructor
  · exact hchoices.nodup_iff.mp h.once
  · exact fun w hw => h.suits w (hperm.mem_iff.mpr hw)
  · exact fun s hs => hchoices.mem_iff.mp (h.switches s hs)
  · exact fun s hs => hchoices.mem_iff.mp (h.settings s hs)

/-- One more word makes no difference if it suits the plan and its option has not been given. -/
theorem Spells.cons {p : Plan} {words : List Word} {w : Word} (h : Spells p words) (hw : w.Suits p)
    (hnew : w.choice ∉ words.map Word.choice) : Spells p (w :: words) := by
  constructor
  · exact List.nodup_cons.mpr ⟨hnew, h.once⟩
  · exact List.forall_mem_cons.mpr ⟨hw, h.suits⟩
  · exact fun s hs => List.mem_cons_of_mem _ (h.switches s hs)
  · exact fun s hs => List.mem_cons_of_mem _ (h.settings s hs)

/-! ## Texts begin like no option -/

theorem head?_ne_of_isNumeral {radix greatest n : Nat} {numeral : List Char}
    (h : IsNumeral radix greatest numeral n) : numeral.head? ≠ some '-' := by
  obtain ⟨text, htext, hform, hvalue, -⟩ := h
  obtain ⟨c, rest, rfl⟩ := List.exists_cons_of_ne_nil htext
  obtain ⟨d, -, hd, -⟩ := (Text.Numeral.valueOf?_cons_eq_some radix).mp hvalue
  rcases hform with rfl | rfl
  · rintro hdash
    cases hdash
    simp [Text.Numeral.digit?, Text.Numeral.digitValue?] at hd
  · simp

theorem head?_ne_of_trim {text : List Char} (h : (Text.trim text).head? ≠ some '-') :
    text.head? ≠ some '-' := by
  intro hdash
  obtain ⟨⟨before, behind, hsplit, hbefore, hbehind⟩, -, -⟩ := Text.trim_stripped text
  -- a dash is not blank, so it would be the first character of what is left
  have hmem : '-' ∉ before ∧ '-' ∉ behind := by
    constructor
    · intro hc
      exact absurd (hbefore _ hc) (by decide)
    · intro hc
      exact absurd (hbehind _ hc) (by decide)
  cases before with
  | cons c before =>
    rw [hsplit] at hdash
    cases hdash
    exact hmem.1 List.mem_cons_self
  | nil =>
    cases hrest : Text.trim text with
    | cons c rest =>
      rw [hsplit, hrest] at hdash
      cases hdash
      rw [hrest] at h
      exact h rfl
    | nil =>
      rw [hsplit, hrest] at hdash
      exact hmem.2 (List.mem_of_mem_head? hdash)

variable {p : Plan} {s : Setting} {text : String}

theorem Setting.Denotes.head?_ne (h : s.Denotes p text) : text.toList.head? ≠ some '-' := by
  cases s with
  | affinity =>
    obtain ⟨radix, numeral, hwritten, hnumeral⟩ := h
    apply head?_ne_of_trim
    rcases hwritten with ⟨-, hmark | hmark⟩ | ⟨-, rfl, -⟩
    · rw [hmark]
      simp
    · rw [hmark]
      simp
    · exact head?_ne_of_isNumeral hnumeral
  | expect =>
    obtain ⟨-, hdigits⟩ := h
    apply head?_ne_of_trim
    intro hdash
    exact absurd (hdigits _ (List.mem_of_mem_head? hdash)) (by decide)
  | threads | init | nonces | seed => exact head?_ne_of_isNumeral h

theorem Word.Suits.readable {w : Word} (h : w.Suits p) : w.Readable := by
  cases w with
  | switch s name => exact h.1
  | attached s text => trivial
  | apart s text => exact Setting.Denotes.head?_ne h

/-! ## Values -/

theorem readWord_of_isNumeral {n : UInt64} (h : IsNumeral 10 greatestWord text.toList n.toNat) :
    readWord text = .ok n := by
  rw [readWord, (Text.Numeral.natural_eq_ok_iff (by decide)).mpr h]
  exact congrArg Except.ok UInt64.ofNat_toNat

/-- A seed is read as a signed number first, which makes no difference. -/
theorem readSeed_of_isNumeral {n : UInt32} (h : IsNumeral 10 greatestWord text.toList n.toNat) :
    readSeed text = .ok n := by
  have hlt : n.toNat < 2 ^ 32 := n.toNat_lt
  have hsmall : IsNumeral 10 0x7fffffffffffffff text.toList n.toNat := by
    obtain ⟨digits, hdigits, hform, hvalue, -⟩ := h
    exact ⟨digits, hdigits, hform, hvalue, by omega⟩
  have hnatural := (Text.Numeral.natural_eq_ok_iff (by decide)).mpr hsmall
  have hinteger : Text.Numeral.integer 0x7fffffffffffffff text.toList = .ok (n.toNat : Int) := by
    have hdash := head?_ne_of_isNumeral h
    unfold Text.Numeral.integer
    split
    · rename_i heq
      rw [heq] at hdash
      exact absurd rfl hdash
    · rename_i heq
      rw [heq] at hdash
      exact absurd rfl hdash
    · rw [hnatural]
      rfl
  have hrange : (0 : Int) ≤ n.toNat ∧ (n.toNat : Int) ≤ greatestSeed := by
    have hgreatest : greatestSeed = 4294967295 := rfl
    omega
  simp only [readSeed, hinteger]
  rw [if_pos hrange]
  simp

/-- A text that denotes what a plan has is accepted for it, and nothing else is. -/
theorem Setting.Denotes.write (h : s.Denotes p text) (i : Invocation) :
    ∃ i', s.write text i = .ok i' ∧ s.valueOf i' = s.valueIn p := by
  cases s with
  | affinity =>
    have hmask : parseMask text = .ok p.affinity :=
      (parseMask_eq_ok_iff _ _).mpr ((maskValue_eq_ok_iff _ _).mpr h)
    exact ⟨{ i with affinity := p.affinity }, by simp only [Setting.write, hmask], rfl⟩
  | expect =>
    obtain ⟨f, hparse⟩ := (Fingerprint.parse_eq_ok_iff text).mpr h
    exact ⟨{ i with expect := some f }, by simp only [Setting.write, hparse], rfl⟩
  | seed => exact ⟨_, congrArg (Except.map _) (readSeed_of_isNumeral h), rfl⟩
  | threads | init | nonces => exact ⟨_, congrArg (Except.map _) (readWord_of_isNumeral h), rfl⟩

/-- A value has no part in the numbers of other settings. -/
theorem write_keeps_values {t : Setting} {i i' : Invocation} (h : s.write text i = .ok i') (hne : t ≠ s) :
    t.valueOf i' = t.valueOf i := by
  cases s with
  | affinity =>
    simp only [Setting.write] at h
    split at h
    · cases h
      cases t <;> first | rfl | exact absurd rfl hne
    · cases h
  | expect =>
    obtain ⟨f, -, rfl⟩ := write_expect h
    cases t <;> rfl
  | threads | init | nonces | seed =>
    obtain ⟨_, -, rfl⟩ := ok_of_map h
    cases t <;> first | rfl | exact absurd rfl hne

/-! ## Obeying the words of a spelling -/

/-- The switch of an option. -/
def Choice.switch? : Choice → Option Switch
  | .switch s => some s
  | _ => none

/-- The setting of an option. -/
def Choice.setting? : Choice → Option Setting
  | .setting s => some s
  | _ => none

theorem Choice.switch?_eq_some {choice : Choice} {s : Switch} :
    choice.switch? = some s ↔ choice = .switch s := by
  cases choice <;> simp [switch?]

theorem Choice.setting?_eq_some {choice : Choice} {s : Setting} :
    choice.setting? = some s ↔ choice = .setting s := by
  cases choice <;> simp [setting?]

theorem mem_filterMap_switch? {choices : List Choice} {s : Switch} :
    s ∈ choices.filterMap Choice.switch? ↔ .switch s ∈ choices := by
  simp [List.mem_filterMap, Choice.switch?_eq_some]

theorem mem_filterMap_setting? {choices : List Choice} {s : Setting} :
    s ∈ choices.filterMap Choice.setting? ↔ .setting s ∈ choices := by
  simp [List.mem_filterMap, Choice.setting?_eq_some]

/-- What has been read when words for certain options, all of them true of a plan, have been obeyed. -/
structure Obeyed (p : Plan) (choices : List Choice) (r : Reading) : Prop where
  switches : r.invocation.switches = choices.filterMap Choice.switch?
  settings : r.settings = choices.filterMap Choice.setting?
  given : ∀ s ∈ r.settings, s.valueOf r.invocation = s.valueIn p
  usual : ∀ s ∉ r.settings, s.valueOf r.invocation = s.valueIn .standard

namespace Obeyed

variable {choices : List Choice} {r : Reading}

theorem start (p : Plan) : Obeyed p [] .start where
  switches := rfl
  settings := rfl
  given := fun s hs => nomatch hs
  usual := fun s _ => by cases s <;> rfl

/-- A switch that is not yet on is turned on. -/
theorem turnOn (h : Obeyed p choices r) {s : Switch} (hnew : .switch s ∉ choices) :
    ∃ r', r.turnOn s = .ok r' ∧ Obeyed p (choices ++ [.switch s]) r' := by
  have hoff : ¬ r.invocation.has s := by
    rw [Invocation.has, decide_eq_true_iff, h.switches, mem_filterMap_switch?]
    exact hnew
  refine ⟨_, by rw [Reading.turnOn, if_neg hoff], ?_⟩
  constructor
  · show r.invocation.switches ++ [s] = _
    rw [h.switches, List.filterMap_append]
    rfl
  · show r.settings = _
    rw [h.settings, List.filterMap_append]
    exact (List.append_nil _).symm
  · exact h.given
  · exact h.usual

/-- A setting that has no value yet is given the number of the plan, and the others keep theirs. -/
theorem give (h : Obeyed p choices r) (htext : s.Denotes p text) (hnew : .setting s ∉ choices) :
    ∃ r', r.give s text = .ok r' ∧ Obeyed p (choices ++ [.setting s]) r' := by
  have hfree : s ∉ r.settings := by
    rw [h.settings, mem_filterMap_setting?]
    exact hnew
  obtain ⟨i, hwrite, hvalue⟩ := htext.write r.invocation
  refine ⟨{ r with invocation := i, settings := r.settings ++ [s] }, ?_, ?_⟩
  · rw [Reading.give, if_neg hfree, hwrite]
  constructor
  · show i.switches = _
    rw [write_keeps_switches hwrite, h.switches, List.filterMap_append]
    exact (List.append_nil _).symm
  · show r.settings ++ [s] = _
    rw [h.settings, List.filterMap_append]
    rfl
  · intro t ht
    rcases List.mem_append.mp ht with hbefore | hnow
    · have hne : t ≠ s := fun heq => hfree (heq ▸ hbefore)
      exact (write_keeps_values hwrite hne).trans (h.given t hbefore)
    · rw [List.mem_singleton.mp hnow]
      exact hvalue
  · intro t ht
    rw [List.mem_append, not_or, List.mem_singleton] at ht
    exact (write_keeps_values hwrite ht.2).trans (h.usual t ht.1)

/-- The step: a word that suits the plan is obeyed if its option has not been given before. -/
theorem word (h : Obeyed p choices r) {w : Word} (hw : w.Suits p) (hnew : w.choice ∉ choices) :
    ∃ r', w.obey r = .ok r' ∧ Obeyed p (choices ++ [w.choice]) r' := by
  cases w with
  | switch s name => exact h.turnOn hnew
  | attached s text | apart s text => exact h.give hw hnew

/-- The run: by induction on the words, of which no two are for one option. -/
theorem words (h : Obeyed p choices r) {words : List Word} (hwords : ∀ w ∈ words, w.Suits p)
    (honce : (choices ++ words.map Word.choice).Nodup) :
    ∃ r', words.foldlM (fun r w => w.obey r) r = .ok r' ∧
      Obeyed p (choices ++ words.map Word.choice) r' := by
  induction words generalizing choices r with
  | nil =>
    rw [List.map_nil, List.append_nil]
    exact ⟨r, rfl, h⟩
  | cons w words ih =>
    rw [List.map_cons, List.append_cons] at honce ⊢
    have hnew : w.choice ∉ choices := by
      intro hmem
      have hfront := (List.nodup_append.mp honce).1
      exact (List.nodup_append.mp hfront).2.2 _ hmem _ (List.mem_singleton_self _) rfl
    obtain ⟨next, hnext, hobeyed⟩ := h.word (hwords w List.mem_cons_self) hnew
    obtain ⟨r', hrest, hobeyed'⟩ := ih hobeyed (fun w hw => hwords w (List.mem_cons_of_mem _ hw)) honce
    refine ⟨r', ?_, hobeyed'⟩
    rw [List.foldlM_cons, hnext]
    exact hrest

end Obeyed

/-! ## The plan that is read -/

/-- Switches that are all different conflict only if both of the pair are there. -/
theorem conflict?_eq_none {i : Invocation} (hnodup : i.switches.Nodup)
    (hpair : ¬ (.mine ∈ i.switches ∧ .verify ∈ i.switches)) : conflict? i = none := by
  unfold conflict?
  split
  · rename_i first second rest hfilter
    have hnodup' := hnodup.filter fun s => s = .mine || s = .verify
    rw [hfilter] at hnodup'
    have hne : first ≠ second := by
      rintro rfl
      exact (List.nodup_cons.mp hnodup').1 List.mem_cons_self
    have hmem (s : Switch) (hs : s = first ∨ s = second) :
        s ∈ i.switches ∧ (s = .mine ∨ s = .verify) := by
      have hin : s ∈ i.switches.filter fun s => s = .mine || s = .verify := by
        rw [hfilter]
        rcases hs with rfl | rfl <;> simp
      simpa using hin
    -- two different ones of the pair are the pair
    obtain ⟨hfirst, hfirst'⟩ := hmem first (Or.inl rfl)
    obtain ⟨hsecond, hsecond'⟩ := hmem second (Or.inr rfl)
    rcases hfirst' with rfl | rfl <;> rcases hsecond' with rfl | rfl
    · exact absurd rfl hne
    · exact absurd ⟨hfirst, hsecond⟩ hpair
    · exact absurd ⟨hsecond, hfirst⟩ hpair
    · exact absurd rfl hne
  · rfl

/-- An invocation comes to a plan if the switches that are on are the needed ones, apart from idle ones, and
    the numbers are those of the plan. -/
theorem plan_eq_ok {i : Invocation} {features : Engine.Features} (hcheck : p.check = .ok ())
    (hneeded : ∀ s : Switch, s.isNeeded p → i.has s) (hon : ∀ s, i.has s → s.isNeeded p ∨ s.isIdle p)
    (hvalues : ∀ s : Setting, s.valueOf i = s.valueIn p) : i.plan features = .ok p := by
  have hhas (s : Switch) (hidle : s.isIdle p = false) : i.has s = s.isNeeded p := by
    rw [Bool.eq_iff_iff]
    refine ⟨fun h => (hon s h).resolve_right ?_, hneeded s⟩
    rw [hidle]
    exact Bool.false_ne_true
  have hthreads : i.threads = p.threads := UInt64.toNat.inj (hvalues .threads)
  have haffinity : i.affinity = p.affinity := UInt64.toNat.inj (hvalues .affinity)
  have hinit : i.initThreads = p.initThreads := UInt64.toNat.inj (hvalues .init)
  have hnonces : i.nonces = p.nonces := UInt64.toNat.inj (hvalues .nonces)
  have hseed : i.seed = p.seed := UInt32.toNat.inj (hvalues .seed)
  have hkernel : i.kernel = p.options.kernel := by
    rw [Invocation.kernel, hhas .avx2 rfl]
    cases hk : p.options.kernel with
    | avx2 => simp [Switch.isNeeded, hk]
    | ssse3 | reference => simp [Switch.isNeeded, hk, hhas .ssse3 (by simp [Switch.isIdle, hk])]
  have hprofile : (if i.has .mine then .full else .light) = p.options.profile := by
    rw [hhas .mine rfl]
    cases hp : p.options.profile <;> simp [Switch.isNeeded, hp]
  have hoptions : i.options = p.options := by
    rw [Invocation.options, hprofile, hkernel, hhas .jit rfl, hhas .secure rfl, hhas .largePages rfl,
      hhas .softAes rfl]
    rfl
  have hstrategy : (⟨!i.has .noBatch, i.has .commit⟩ : Strategy) = p.strategy := by
    rw [hhas .noBatch rfl, hhas .commit rfl]
    simp [Switch.isNeeded]
  have hplan : i.plan features = p.check.map fun _ => p := by
    simp only [Invocation.plan, hhas .auto rfl, hoptions, hthreads, haffinity, hinit, hnonces, hseed,
      hstrategy]
    rfl
  rw [hplan, hcheck]
  rfl

/-- A spelling is accepted and read as the plan, whatever the processor offers. -/
theorem Spells.read {words : List Word} (h : Spells p words) (hcheck : p.check = .ok ()) :
    ∃ i, parse (words.flatMap Word.arguments) = .ok i ∧ ∀ features, i.plan features = .ok p := by
  obtain ⟨r, hobey, hobeyed⟩ := (Obeyed.start p).words h.suits h.once
  rw [List.nil_append] at hobeyed
  have hread : Reading.start.arguments (words.flatMap Word.arguments) = .ok r :=
    Reading.arguments_of_words (fun w hw => (h.suits w hw).readable) rfl hobey
  have hhas (s : Switch) : s ∈ r.invocation.switches ↔ .switch s ∈ words.map Word.choice := by
    rw [hobeyed.switches, mem_filterMap_switch?]
  have hon (s : Switch) (hs : s ∈ r.invocation.switches) : s.isNeeded p ∨ s.isIdle p := by
    obtain ⟨w, hw, hchoice⟩ := List.mem_map.mp ((hhas s).mp hs)
    cases w with
    | switch t name =>
      cases hchoice
      exact (h.suits _ hw).2
    | attached t text | apart t text => cases hchoice
  have hconflict : conflict? r.invocation = none := by
    apply conflict?_eq_none
    · rw [hobeyed.switches]
      apply h.once.filterMap
      intro choice choice' s hs hs'
      exact (Choice.switch?_eq_some.mp hs).trans (Choice.switch?_eq_some.mp hs').symm
    · -- one of the two is for the full profile, the other for the light one
      rintro ⟨hmine, hverify⟩
      have hfull : p.options.profile = .full := by
        simpa [Switch.isNeeded, Switch.isIdle] using hon _ hmine
      have hlight : p.options.profile = .light := by
        simpa [Switch.isNeeded, Switch.isIdle] using hon _ hverify
      rw [hfull] at hlight
      cases hlight
  refine ⟨r.invocation, ?_, fun features => plan_eq_ok hcheck ?_ ?_ ?_⟩
  · simp only [parse, hread, hconflict, bind, Except.bind]
    rfl
  · intro s hs
    rw [Invocation.has, decide_eq_true_iff, hhas]
    exact h.switches s hs
  · intro s hs
    rw [Invocation.has, decide_eq_true_iff] at hs
    exact hon s hs
  · -- a setting without a word has the usual number, and then so does the plan
    intro s
    by_cases hgiven : s ∈ r.settings
    · exact hobeyed.given s hgiven
    · rw [hobeyed.usual s hgiven]
      by_contra hne
      apply hgiven
      rw [hobeyed.settings, mem_filterMap_setting?]
      exact h.settings s (Ne.symm hne)

/-! ## A spelling of every plan -/

theorem Setting.valueIn_le (p : Plan) (s : Setting) : s.valueIn p ≤ greatestWord := by
  cases s with
  | threads | affinity | init | nonces => exact Nat.le_pred_of_lt (UInt64.toNat_lt _)
  | seed => exact Nat.le_trans (Nat.le_pred_of_lt (UInt32.toNat_lt _)) (by decide)
  | expect => exact Nat.zero_le _

theorem denotes_decimal (p : Plan) (hs : s ≠ .expect) :
    s.Denotes p (String.ofList (Text.Numeral.decimal (s.valueIn p))) := by
  have hnumeral : IsNumeral 10 greatestWord (Text.Numeral.decimal (s.valueIn p)) (s.valueIn p) :=
    (Text.Numeral.natural_eq_ok_iff (by decide)).mp
      (Text.Numeral.natural_toDigits (by decide) (by decide) (s.valueIn_le p))
  rw [← String.toList_ofList (l := Text.Numeral.decimal (s.valueIn p))] at hnumeral
  cases s with
  | affinity => exact (maskValue_eq_ok_iff _ _).mp ((parseMask_eq_ok_iff _ _).mp (parseMask_decimal _))
  | expect => exact absurd rfl hs
  | threads | init | nonces | seed => exact hnumeral

theorem denotes_hexadecimal (p : Plan) :
    Setting.affinity.Denotes p (String.ofList (Text.Numeral.hexadecimal p.affinity.toNat)) :=
  (maskValue_eq_ok_iff _ _).mp ((parseMask_eq_ok_iff _ _).mp (parseMask_hexadecimal _))

theorem denotes_fingerprint (p : Plan) (f : Fingerprint) : Setting.expect.Denotes p f.text :=
  (Fingerprint.parse_eq_ok_iff f.text).mp ⟨f, Fingerprint.parse_text f⟩

/-- The settings that a plan has numbers for. -/
def Setting.ofPlan : List Setting := [.threads, .affinity, .init, .nonces, .seed]

/-- The words that spell a plan with its needed switches and all its numbers in decimal. -/
def wordsOf (p : Plan) : List Word :=
  (Switch.all.filter fun s => s.isNeeded p).map (fun s => .switch s s.name) ++
    Setting.ofPlan.map fun s => .attached s (String.ofList (Text.Numeral.decimal (s.valueIn p)))

theorem choices_wordsOf (p : Plan) : (wordsOf p).map Word.choice =
    (Switch.all.filter fun s => s.isNeeded p).map Choice.switch ++ Setting.ofPlan.map Choice.setting := by
  rw [wordsOf, List.map_append, List.map_map, List.map_map]
  rfl

theorem spells_wordsOf (p : Plan) : Spells p (wordsOf p) := by
  constructor
  · have hswitches : Switch.all.Nodup := by decide
    rw [choices_wordsOf, List.nodup_append]
    refine ⟨(hswitches.filter _).map fun _ _ h => Choice.switch.inj h, by decide, ?_⟩
    intro choice hswitch choice' hsetting heq
    obtain ⟨s, -, rfl⟩ := List.mem_map.mp hswitch
    obtain ⟨t, -, rfl⟩ := List.mem_map.mp hsetting
    cases heq
  · intro w hw
    rcases List.mem_append.mp hw with hw | hw
    · obtain ⟨s, hs, rfl⟩ := List.mem_map.mp hw
      exact ⟨Or.inl rfl, Or.inl (List.mem_filter.mp hs).2⟩
    · obtain ⟨s, hs, rfl⟩ := List.mem_map.mp hw
      apply denotes_decimal
      rintro rfl
      exact absurd hs (by decide)
  · intro s hs
    have hall : s ∈ Switch.all := by cases s <;> decide
    rw [choices_wordsOf]
    exact List.mem_append_left _ (List.mem_map_of_mem (List.mem_filter.mpr ⟨hall, hs⟩))
  · intro s hs
    have hnumber : s ∈ Setting.ofPlan := by
      cases s with
      | expect => exact absurd rfl hs
      | threads | affinity | init | nonces | seed => decide
    rw [choices_wordsOf]
    exact List.mem_append_right _ (List.mem_map_of_mem hnumber)

/-! ## Back from plans to what was said -/

/-- Only good plans come of an invocation, and what is left to the processor does not depend on it. -/
theorem of_plan_eq_ok {i : Invocation} {features : Engine.Features} (h : i.plan features = .ok p) :
    p.check = .ok () ∧
      (i.has .auto → p.options.softAes = !features.aes ∧ p.options.kernel = .fastest features) := by
  obtain ⟨_, hcheck, rfl⟩ := ok_of_map h
  refine ⟨hcheck, fun hauto => ?_⟩
  simp only [hauto, if_true]
  exact ⟨rfl, rfl⟩

/-! ## Reading what was spelled -/

/-- **Every good plan can be written on a command line, and is read back exactly.** A plan is spelled by the
    switches that it needs and by texts for its numbers; every plan has a spelling, in any order of the
    words, and further words that suit the plan can be added. Numbers may be in decimal, a mask also in
    hexadecimal, and any fingerprint may be expected. A spelling of a plan that passes its check is accepted,
    and the plan that follows from it on any processor is this one. Conversely the plan of an accepted
    command line passes its check, and where the choice is left to the processor nothing but its features
    decides on the rounds in software and on the kernel. -/
theorem plans_are_spelled_and_read_back :
    (∀ p, Spells p (wordsOf p)) ∧
    (∀ p words words', Spells p words → words.Perm words' → Spells p words') ∧
    (∀ p words (w : Word), Spells p words → w.Suits p → w.choice ∉ words.map Word.choice →
      Spells p (w :: words)) ∧
    (∀ p, (∀ s : Setting, s ≠ .expect → s.Denotes p (String.ofList (Text.Numeral.decimal (s.valueIn p)))) ∧
      Setting.affinity.Denotes p (String.ofList (Text.Numeral.hexadecimal p.affinity.toNat)) ∧
      ∀ f : Fingerprint, Setting.expect.Denotes p f.text) ∧
    (∀ p words, p.check = .ok () → Spells p words →
      ∃ i, parse (words.flatMap Word.arguments) = .ok i ∧ ∀ features, i.plan features = .ok p) ∧
    (∀ arguments i features p, parse arguments = .ok i → i.plan features = .ok p →
      p.check = .ok () ∧ ("--auto" ∈ arguments →
        p.options.softAes = !features.aes ∧ p.options.kernel = .fastest features)) := by
  refine ⟨spells_wordsOf, fun p words words' h hperm => h.perm hperm, fun p words w h => h.cons,
    fun p => ⟨fun s => denotes_decimal p, denotes_hexadecimal p, denotes_fingerprint p⟩,
    fun p words hcheck h => h.read hcheck, ?_⟩
  intro arguments i features p hparse hplan
  obtain ⟨hcheck, hauto⟩ := of_plan_eq_ok hplan
  refine ⟨hcheck, fun hmem => hauto ?_⟩
  exact (has_of_parse hparse .auto).mpr ⟨"auto", Or.inl rfl, hmem⟩

/-- A plan for mining with two kernels named, and a plan whose kernel the processor chooses. -/
theorem mining_plan_and_tuned_plan :
    let mining : Plan :=
      { Plan.standard with
        options := { Engine.Options.standard with profile := .full, largePages := true, kernel := .avx2 }
        threads := 8
        affinity := 0xf0 }
    let features : Engine.Features := ⟨true, true, true⟩
    (∃ i, parse ["--affinity", " 0xF0", "--ssse3", "--largepages", "--threads=+08", "--mine", "--json",
      "--avx2", "--seed", "0"] = .ok i ∧ ∀ features, i.plan features = .ok mining) ∧
    ∃ i p, parse ["--softAes", "--auto", "--ssse3"] = .ok i ∧ i.plan features = .ok p ∧
      p.check = .ok () ∧ p.options.softAes = false ∧ p.options.kernel = .avx2 := by
  intro mining features
  obtain ⟨-, -, -, -, hread, hback⟩ := plans_are_spelled_and_read_back
  let words : List Word := [.apart .affinity " 0xF0", .switch .ssse3 "ssse3",
    .switch .largePages "largepages", .attached .threads "+08", .switch .mine "mine", .switch .json "json",
    .switch .avx2 "avx2", .apart .seed "0"]
  have haffinity : Setting.affinity.Denotes mining " 0xF0" :=
    (maskValue_eq_ok_iff _ _).mp ((parseMask_eq_ok_iff _ mining.affinity).mp (by rfl))
  have hthreads : Setting.threads.Denotes mining "+08" :=
    (Text.Numeral.natural_eq_ok_iff (by decide)).mp (by rfl)
  have hseed : Setting.seed.Denotes mining "0" :=
    (Text.Numeral.natural_eq_ok_iff (by decide)).mp (by rfl)
  have hspells : Spells mining words := by
    constructor
    · decide
    · simp only [words, List.forall_mem_cons]
      exact ⟨haffinity, ⟨Or.inl rfl, by decide⟩, ⟨Or.inr (by decide), by decide⟩, hthreads,
        ⟨Or.inl rfl, by decide⟩, ⟨Or.inl rfl, by decide⟩, ⟨Or.inl rfl, by decide⟩, hseed, nofun⟩
    · intro s
      cases s <;> decide
    · intro s
      cases s <;> decide
  refine ⟨hread mining words rfl hspells, ?_⟩
  obtain ⟨hcheck, htuned⟩ := hback ["--softAes", "--auto", "--ssse3"]
    { Invocation.standard with switches := [.softAes, .auto, .ssse3] } features _ (by rfl) (by rfl)
  exact ⟨_, _, rfl, rfl, hcheck, htuned (by decide)⟩

end NonceSweep.CommandLine
