import NonceSweep.Outcome.Report
import NonceSweep.Proofs.Decimal.Finite
import NonceSweep.Proofs.Decimal.Reading
import NonceSweep.Proofs.Outcome.FingerprintText
import NonceSweep.Proofs.Text.Json

/-!
# Reports, read back from their text

The text of a report is a JSON object, and any reader of such objects finds in it what was written: the members
with their names, the list of counts with each of its elements, numbers digit by digit and texts between their
quotes. No two reports share a text unless they agree in everything but the time, and in the double that the
time comes to.

## Main results

- `Report.read?`: reads a report by the names of its members
- `Report.text_is_read_back`: what is read from the text of a report
-/

namespace NonceSweep.Report

open Text.Json (Member Value Lexes Token memberTokens objectTokens)
open Text.Numeral (natural greatestWord)
open Decimal (IsDigit)

/-! ## Members -/

/-- The members of a report, in the order in which they are written. -/
def members (r : Report) : List Member :=
  [("fingerprint".toList, .text r.fingerprint.characters),
   ("strategy".toList, .text r.strategy.name.toList),
   ("threads".toList, .number (numeral r.threads)),
   ("nonces".toList, .number (numeral r.nonces)),
   ("hashes".toList, .number (numeral r.hashes)),
   ("per_worker".toList, .list (r.perWorker.map numeral)),
   ("claims".toList, .number (numeral r.claims)),
   ("elapsed_secs".toList, .number (seconds.render r.elapsed.inSeconds))]

/-! ## Pieces of the text -/

theorem isNumeric_of_isDigit {c : Char} (h : IsDigit c) :
    Text.Json.beginsNumber c = true ∧ Text.Json.isNumeric c = true := by
  have hcheck : ∀ d < 10, Text.Json.beginsNumber (Nat.digitChar d) = true ∧
      Text.Json.isNumeric (Nat.digitChar d) = true := by decide
  obtain ⟨d, hd, rfl⟩ := h
  exact hcheck d hd

theorem isNumeric_of_isNumberCharacter {c : Char} (h : Decimal.Layout.IsNumberCharacter c) :
    Text.Json.isNumeric c = true := by
  rcases h with hdigit | rfl | rfl | rfl | rfl
  · exact (isNumeric_of_isDigit hdigit).2
  all_goals decide

/-- Digits begin with one. -/
theorem numeral_characters (n : UInt64) :
    (∃ c ∈ (numeral n).head?, Text.Json.beginsNumber c = true) ∧
      ∀ c ∈ numeral n, Text.Json.isNumeric c = true := by
  have hdigits : ∀ c ∈ numeral n, IsDigit c := fun c hc => Text.Numeral.mem_toDigits (by decide) hc
  refine ⟨?_, fun c hc => (isNumeric_of_isDigit (hdigits c hc)).2⟩
  have hne : numeral n ≠ [] := Nat.toDigits_ne_nil
  obtain ⟨first, rest, hnumeral⟩ := List.exists_cons_of_ne_nil hne
  have hfirst : first ∈ numeral n := by
    rw [hnumeral]
    exact List.mem_cons_self
  refine ⟨first, ?_, (isNumeric_of_isDigit (hdigits first hfirst)).1⟩
  rw [hnumeral]
  rfl

variable {ending : List Char} {tokens : List Token}

theorem lexes_numeral (n : UInt64) (hend : ∃ c ∈ ending.head?, Text.Json.isNumeric c = false)
    (hending : Lexes ending tokens) : Lexes (numeral n ++ ending) (.number (numeral n) :: tokens) :=
  Lexes.number (numeral_characters n).1 (numeral_characters n).2 hend hending

theorem lexes_seconds (x : Float) (hend : ∃ c ∈ ending.head?, Text.Json.isNumeric c = false)
    (hending : Lexes ending tokens) :
    Lexes (seconds.render x ++ ending) (.number (seconds.render x) :: tokens) := by
  obtain ⟨⟨first, hfirst, hdigit⟩, hcharacters⟩ := seconds.render_characters x
  exact Lexes.number ⟨first, hfirst, (isNumeric_of_isDigit hdigit).1⟩
    (fun c hc => isNumeric_of_isNumberCharacter (hcharacters c hc)) hend hending

/-- Texts that need no escapes. -/
def IsPlain (text : List Char) : Prop := '"' ∉ text ∧ '\\' ∉ text

instance (text : List Char) : Decidable (IsPlain text) :=
  inferInstanceAs (Decidable ('"' ∉ text ∧ '\\' ∉ text))

theorem lexes_string {text : List Char} (h : IsPlain text) : Lexes (string text) [.text text] :=
  Lexes.text h.1 h.2

theorem lexes_member (name : String) (h : IsPlain name.toList) :
    Lexes (member name) [.text name.toList, .mark ':'] :=
  ((Lexes.spaces 2).append (lexes_string h)).append
    ((Lexes.mark (by decide)).append (Lexes.gap (by decide)))

/-- The end of a line that another member follows. -/
theorem lexes_comma : Lexes [',', '\n'] [.mark ','] :=
  (Lexes.mark (by decide)).append (Lexes.gap (by decide))

theorem lexes_text_line (name : String) {text : List Char} (hname : IsPlain name.toList)
    (htext : IsPlain text) :
    Lexes (member name ++ string text ++ [','] ++ ['\n'])
      (memberTokens (name.toList, .text text) ++ [.mark ',']) := by
  have hline := ((lexes_member name hname).append (lexes_string htext)).append lexes_comma
  rwa [List.append_assoc _ [','] ['\n']]

theorem lexes_number_line (name : String) (hname : IsPlain name.toList) (n : UInt64) :
    Lexes (member name ++ numeral n ++ [','] ++ ['\n'])
      (memberTokens (name.toList, .number (numeral n)) ++ [.mark ',']) := by
  -- the comma is what ends the number, so the two are read together
  have hline := (lexes_member name hname).append (lexes_numeral n ⟨',', rfl, by decide⟩ lexes_comma)
  rwa [List.append_assoc _ [','] ['\n'], List.append_assoc]

/-- The line of the last member. -/
theorem lexes_seconds_line (name : String) (hname : IsPlain name.toList) (x : Float) :
    Lexes (member name ++ seconds.render x ++ ['\n'])
      (memberTokens (name.toList, .number (seconds.render x))) := by
  have hnewline : Lexes ['\n'] [] := Lexes.gap (by decide)
  rw [List.append_assoc]
  exact (lexes_member name hname).append (lexes_seconds x ⟨'\n', rfl, by decide⟩ hnewline)

/-! ## Lines -/

/-- Lines with the ends of them. -/
def ended (lines : List (List Char)) : List Char := lines.flatMap (· ++ ['\n'])

theorem ended_cons (line : List Char) (lines : List (List Char)) :
    ended (line :: lines) = line ++ ['\n'] ++ ended lines := List.flatMap_cons

/-- The last line has no end. -/
theorem intercalate_concat (lines : List (List Char)) (last : List Char) :
    List.intercalate ['\n'] (lines ++ [last]) = ended lines ++ last := by
  induction lines with
  | nil => simp [ended, List.intercalate]
  | cons line lines ih =>
    rw [ended_cons, List.append_assoc, List.append_assoc, ← ih]
    cases lines <;> simp [List.intercalate]

theorem lexes_elements (first : UInt64) (rest : List UInt64) :
    Lexes (ended (elements (first :: rest)))
      (List.intercalate [.mark ','] (((first :: rest).map numeral).map fun n => [.number n])) := by
  have hindent : Lexes (List.replicate 4 ' ') [] := Lexes.spaces 4
  have hnewline : Lexes ['\n'] [] := Lexes.gap (by decide)
  induction rest generalizing first with
  | nil =>
    have hline := hindent.append (lexes_numeral first ⟨'\n', rfl, by decide⟩ hnewline)
    simpa [ended, elements, List.intercalate] using hline
  | cons next rest ih =>
    have hline := hindent.append (lexes_numeral first ⟨',', rfl, by decide⟩ lexes_comma)
    have hlines := hline.append (ih next)
    simpa [ended, elements, List.intercalate] using hlines

/-- The lines of a list; the empty list, which is written in another way, is one of them. -/
theorem lexes_listMember (name : String) (hname : IsPlain name.toList) (values : List UInt64) :
    Lexes (ended (listMember name values))
      (memberTokens (name.toList, .list (values.map numeral)) ++ [.mark ',']) := by
  have hopen : Lexes ['['] [.mark '['] := Lexes.mark (by decide)
  have hclose : Lexes [']'] [.mark ']'] := Lexes.mark (by decide)
  have hnewline : Lexes ['\n'] [] := Lexes.gap (by decide)
  cases values with
  | nil =>
    have hline := (lexes_member name hname).append (hopen.append (hclose.append lexes_comma))
    simpa [ended, listMember, memberTokens, Value.tokens, List.intercalate] using hline
  | cons first rest =>
    have hindent : Lexes [' ', ' '] [] := Lexes.spaces 2
    have hlines := ((lexes_member name hname).append (hopen.append hnewline)).append
      ((lexes_elements first rest).append (hindent.append (hclose.append lexes_comma)))
    simpa [ended, listMember, memberTokens, Value.tokens] using hlines

theorem isPlain_characters (f : Fingerprint) : IsPlain f.characters := by
  constructor <;> intro h <;> exact absurd (Fingerprint.isHexDigit_of_mem_characters h) (by decide)

theorem isPlain_name (s : Strategy) : IsPlain s.name.toList := by
  obtain ⟨batched, commits⟩ := s
  cases batched <;> cases commits <;> decide

/-- The tokens of the text of a report are those of its members. -/
theorem lexes_characters (r : Report) : Lexes r.characters (objectTokens r.members) := by
  have hopen : Lexes ['\x7b', '\n'] [.mark '\x7b'] := (Lexes.mark (by decide)).append (Lexes.gap (by decide))
  have hclose : Lexes ['\x7d'] [.mark '\x7d'] := Lexes.mark (by decide)
  have hfingerprint := lexes_text_line "fingerprint" (by decide) (isPlain_characters r.fingerprint)
  have hstrategy := lexes_text_line "strategy" (by decide) (isPlain_name r.strategy)
  have hthreads := lexes_number_line "threads" (by decide) r.threads
  have hnonces := lexes_number_line "nonces" (by decide) r.nonces
  have hhashes := lexes_number_line "hashes" (by decide) r.hashes
  have hcounts := lexes_listMember "per_worker" (by decide) r.perWorker
  have hclaims := lexes_number_line "claims" (by decide) r.claims
  have helapsed := lexes_seconds_line "elapsed_secs" (by decide) r.elapsed.inSeconds
  have hall := hopen.append <| hfingerprint.append <| hstrategy.append <| hthreads.append <|
    hnonces.append <| hhashes.append <| hcounts.append <| hclaims.append <| helapsed.append hclose
  -- all lines but the last are ended
  have hlines : r.lines = ([['\x7b'],
      member "fingerprint" ++ string r.fingerprint.characters ++ [','],
      member "strategy" ++ string r.strategy.name.toList ++ [','],
      member "threads" ++ numeral r.threads ++ [','],
      member "nonces" ++ numeral r.nonces ++ [','],
      member "hashes" ++ numeral r.hashes ++ [',']] ++ listMember "per_worker" r.perWorker ++
      [member "claims" ++ numeral r.claims ++ [','],
       member "elapsed_secs" ++ seconds.render r.elapsed.inSeconds]) ++ [['\x7d']] := by
    simp [lines]
  rw [characters, hlines, intercalate_concat]
  simpa [ended, objectTokens, members, List.intercalate] using hall

theorem read_text (r : Report) : Text.Json.read r.text.toList = some r.members := by
  rw [text, String.toList_ofList]
  exact Text.Json.read_of_lexes r.lexes_characters

/-! ## Reading a report -/

/-- What a report says besides the time. -/
structure Lasting where
  fingerprint : Fingerprint
  strategy : Strategy
  threads : UInt64
  nonces : UInt64
  hashes : UInt64
  perWorker : List UInt64
  claims : UInt64
deriving DecidableEq

def lasting (r : Report) : Lasting :=
  ⟨r.fingerprint, r.strategy, r.threads, r.nonces, r.hashes, r.perWorker, r.claims⟩

/-- The number of 64 bits that a numeral stands for. -/
def word? (numeral : List Char) : Option UInt64 :=
  (natural 10 greatestWord numeral).toOption.map UInt64.ofNat

def wordOf? : Value → Option UInt64
  | .number numeral => word? numeral
  | _ => none

def wordsOf? : Value → Option (List UInt64)
  | .list numerals => numerals.mapM word?
  | _ => none

def fingerprintOf? : Value → Option Fingerprint
  | .text text => (Fingerprint.parse (String.ofList text)).toOption
  | _ => none

def strategyOf? : Value → Option Strategy
  | .text name =>
    [⟨false, false⟩, ⟨false, true⟩, ⟨true, false⟩, ⟨true, true⟩].find? fun (s : Strategy) =>
      s.name.toList == name
  | _ => none

def numberOf? : Value → Option ℚ
  | .number numeral => Decimal.number? numeral
  | _ => none

/-- What members with certain names say, in whatever order they stand. -/
def ofMembers? (members : List Member) : Option (Lasting × ℚ) := do
  let fingerprint ← (members.lookup "fingerprint".toList).bind fingerprintOf?
  let strategy ← (members.lookup "strategy".toList).bind strategyOf?
  let threads ← (members.lookup "threads".toList).bind wordOf?
  let nonces ← (members.lookup "nonces".toList).bind wordOf?
  let hashes ← (members.lookup "hashes".toList).bind wordOf?
  let perWorker ← (members.lookup "per_worker".toList).bind wordsOf?
  let claims ← (members.lookup "claims".toList).bind wordOf?
  let elapsed ← (members.lookup "elapsed_secs".toList).bind numberOf?
  return (⟨fingerprint, strategy, threads, nonces, hashes, perWorker, claims⟩, elapsed)

/-- Reads a report. -/
def read? (text : String) : Option (Lasting × ℚ) := (Text.Json.read text.toList).bind ofMembers?

theorem word?_numeral (n : UInt64) : word? (numeral n) = some n := by
  have hle : n.toNat ≤ greatestWord := Nat.le_pred_of_lt n.toNat_lt
  have hread : natural 10 greatestWord (numeral n) = .ok n.toNat :=
    Text.Numeral.natural_toDigits (by decide) (by decide) hle
  rw [word?, hread]
  exact congrArg some UInt64.ofNat_toNat

theorem mapM_word?_numeral (values : List UInt64) : (values.map numeral).mapM word? = some values := by
  induction values with
  | nil => rfl
  | cons n values ih =>
    rw [List.map_cons, List.mapM_cons, word?_numeral, ih]
    rfl

theorem fingerprintOf?_characters (f : Fingerprint) : fingerprintOf? (.text f.characters) = some f := by
  have hparse : Fingerprint.parse (String.ofList f.characters) = .ok f := f.parse_text
  rw [fingerprintOf?, hparse]
  rfl

theorem strategyOf?_name (s : Strategy) : strategyOf? (.text s.name.toList) = some s := by
  obtain ⟨batched, commits⟩ := s
  cases batched <;> cases commits <;> decide

theorem bind_lookup {α : Type} {members : List Member} {name : String} {v : Value} {f : Value → Option α}
    {a : α} (hlookup : members.lookup name.toList = some v) (hv : f v = some a) :
    (members.lookup name.toList).bind f = some a := by
  rw [hlookup, Option.bind_some, hv]

/-- Every member is found under its name. -/
theorem ofMembers?_members {r : Report} {elapsed : ℚ}
    (helapsed : Decimal.number? (seconds.render r.elapsed.inSeconds) = some elapsed) :
    ofMembers? r.members = some (r.lasting, elapsed) := by
  have hfingerprint : (r.members.lookup "fingerprint".toList).bind fingerprintOf? = some r.fingerprint :=
    bind_lookup rfl (fingerprintOf?_characters r.fingerprint)
  have hstrategy : (r.members.lookup "strategy".toList).bind strategyOf? = some r.strategy :=
    bind_lookup rfl (strategyOf?_name r.strategy)
  have hthreads : (r.members.lookup "threads".toList).bind wordOf? = some r.threads :=
    bind_lookup rfl (word?_numeral r.threads)
  have hnonces : (r.members.lookup "nonces".toList).bind wordOf? = some r.nonces :=
    bind_lookup rfl (word?_numeral r.nonces)
  have hhashes : (r.members.lookup "hashes".toList).bind wordOf? = some r.hashes :=
    bind_lookup rfl (word?_numeral r.hashes)
  have hcounts : (r.members.lookup "per_worker".toList).bind wordsOf? = some r.perWorker :=
    bind_lookup rfl (mapM_word?_numeral r.perWorker)
  have hclaims : (r.members.lookup "claims".toList).bind wordOf? = some r.claims :=
    bind_lookup rfl (word?_numeral r.claims)
  have htime : (r.members.lookup "elapsed_secs".toList).bind numberOf? = some elapsed :=
    bind_lookup rfl helapsed
  rw [ofMembers?, hfingerprint, hstrategy, hthreads, hnonces, hhashes, hcounts, hclaims, htime]
  rfl

/-- What is read from the text of a report. The number that is read for the time is read as its double. -/
theorem read?_text (r : Report) : ∃ elapsed, read? r.text = some (r.lasting, elapsed) ∧
    Decimal.Binary.ReadAs elapsed r.elapsed.inSeconds.toBits := by
  obtain ⟨elapsed, hnumber, hread⟩ := seconds.number?_render r.elapsed.inSeconds
  refine ⟨elapsed, ?_, hread⟩
  rw [read?, read_text, Option.bind_some]
  exact ofMembers?_members hnumber

theorem lasting_eq_iff (r r' : Report) : r.lasting = r'.lasting ↔
    r.fingerprint = r'.fingerprint ∧ r.strategy = r'.strategy ∧ r.threads = r'.threads ∧
      r.nonces = r'.nonces ∧ r.hashes = r'.hashes ∧ r.perWorker = r'.perWorker ∧ r.claims = r'.claims := by
  simp only [lasting, Lasting.mk.injEq]

theorem text_eq_iff (r r' : Report) :
    r.text = r'.text ↔ r.lasting = r'.lasting ∧ r.elapsed.inSeconds = r'.elapsed.inSeconds := by
  constructor
  · intro h
    obtain ⟨elapsed, hread, hdouble⟩ := r.read?_text
    obtain ⟨elapsed', hread', hdouble'⟩ := r'.read?_text
    -- one text is read in one way, and the number that is read for the time has one double
    rw [h, hread'] at hread
    obtain ⟨hlasting, rfl⟩ := Prod.mk.inj (Option.some.inj hread)
    exact ⟨hlasting.symm, (Decimal.inSeconds_eq_iff _ _).mp (hdouble.unique hdouble')⟩
  · rintro ⟨hlasting, htime⟩
    obtain ⟨hfingerprint, hstrategy, hthreads, hnonces, hhashes, hcounts, hclaims⟩ :=
      (lasting_eq_iff r r').mp hlasting
    rw [text, text, characters, characters, lines, lines, hfingerprint, hstrategy, hthreads, hnonces, hhashes,
      hcounts, hclaims, htime]

/-! ## The text of a report -/

/-- **The text of a report loses nothing but time, and of the time only what its double loses.** Every report has
    a text, and from it each member is read back under its name: the fingerprint by reading its digits, the
    strategy by its name, numbers of 64 bits and the list of them by their digits, and for the time a number that
    is read as the double of the elapsed seconds. So two reports have the same text exactly if they agree in
    everything else and in this double. What is written for the double cannot be taken for the end of a
    member, of a list or of a line. -/
theorem text_is_read_back :
    (∀ r : Report, ∃ elapsed, read? r.text = some (r.lasting, elapsed) ∧
      Decimal.Binary.ReadAs elapsed r.elapsed.inSeconds.toBits) ∧
    (∀ r r' : Report, r.text = r'.text ↔
      (r.fingerprint = r'.fingerprint ∧ r.strategy = r'.strategy ∧ r.threads = r'.threads ∧
        r.nonces = r'.nonces ∧ r.hashes = r'.hashes ∧ r.perWorker = r'.perWorker ∧ r.claims = r'.claims) ∧
      r.elapsed.inSeconds = r'.elapsed.inSeconds) ∧
    (∀ r : Report, Fingerprint.parse (String.ofList r.fingerprint.characters) = .ok r.fingerprint) ∧
    (∀ r : Report, ∀ c ∈ seconds.render r.elapsed.inSeconds, c ∉ [',', '[', ']', '\x7b', '\x7d', '"', '\n']) := by
  refine ⟨read?_text, fun r r' => ?_, fun r => r.fingerprint.parse_text, fun r c hc => ?_⟩
  · rw [text_eq_iff, lasting_eq_iff]
  · have hnumeric := isNumeric_of_isNumberCharacter ((seconds.render_characters _).2 c hc)
    intro hmem
    have hcheck : [',', '[', ']', '\x7b', '\x7d', '"', '\n'].all (!Text.Json.isNumeric ·) = true := by decide
    have hno := List.all_eq_true.mp hcheck c hmem
    rw [hnumeric] at hno
    exact Bool.false_ne_true hno

/-- A list without elements is told from one of a zero, but a nanosecond is lost in so many seconds. -/
theorem idle_worker_and_lost_nanosecond :
    let idle : Report := ⟨.zero, ⟨true, false⟩, 1, 0, 0, [], 1, ⟨9007199254740992, 0⟩⟩
    let later : Report := { idle with elapsed := ⟨9007199254740992, 1⟩ }
    let listed : Report := { idle with perWorker := [0] }
    idle.text = later.text ∧ idle.text ≠ listed.text ∧
      (∃ elapsed, read? idle.text = some (idle.lasting, elapsed) ∧ read? later.text = some (idle.lasting, elapsed)) ∧
      '.' ∈ seconds.render idle.elapsed.inSeconds ∧ '.' ≠ ',' := by
  intro idle later listed
  obtain ⟨hread, htext, -, hcharacters⟩ := text_is_read_back
  have htime : Duration.inSeconds ⟨9007199254740992, 0⟩ = Duration.inSeconds ⟨9007199254740992, 1⟩ := by
    decide +kernel
  have hlost : idle.text = later.text := (htext idle later).mpr ⟨⟨rfl, rfl, rfl, rfl, rfl, rfl, rfl⟩, htime⟩
  have hpoint : '.' ∈ seconds.render idle.elapsed.inSeconds := by decide +kernel
  refine ⟨hlost, ?_, ?_, hpoint, ?_⟩
  · intro hequal
    obtain ⟨⟨-, -, -, -, -, hcounts, -⟩, -⟩ := (htext idle listed).mp hequal
    cases hcounts
  · obtain ⟨elapsed, hidle, -⟩ := hread idle
    exact ⟨elapsed, hidle, hlost ▸ hidle⟩
  · rintro hcomma
    apply hcharacters idle '.' hpoint
    rw [hcomma]
    exact List.mem_cons_self

end NonceSweep.Report
