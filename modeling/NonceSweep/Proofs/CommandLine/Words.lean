import NonceSweep.Proofs.CommandLine.Given

/-!
# Words of a command line

A word is an option as it is written: a switch with one of its names, or a setting with its text attached or
apart, which makes two arguments of one word. The reader goes from argument to argument and looks at a text
that stands apart only when the next option is met. This delay cannot be seen in a line of words that all
take effect: reading the line is to obey its words in turn.

## Main results

- `Word`, `Word.arguments`: words and how they are written
- `Reading.arguments_of_words`: a line of words is read as they are obeyed
-/

namespace NonceSweep.CommandLine

/-! ## Names of switches -/

/-- The names of a switch. -/
def Switch.Names (s : Switch) (name : String) : Prop := name = s.name ∨ name ∈ s.otherNames

/-- A switch has the names that are listed for it, and no other option has them. -/
theorem Choice.named?_eq_switch {name : String} {s : Switch} :
    Choice.named? name = some (.switch s) ↔ s.Names name := by
  constructor
  · intro h
    unfold named? at h
    split at h
    · cases h
    · split at h
      · cases h
      · split at h
        · rename_i found hfound
          cases h
          have hname := List.find?_some hfound
          rw [Bool.or_eq_true, beq_iff_eq, List.contains_iff_mem] at hname
          exact hname.imp Eq.symm id
        · obtain ⟨setting, -, habsurd⟩ := Option.map_eq_some_iff.mp h
          cases habsurd
  · intro h
    have hlisted : ∀ name ∈ s.name :: s.otherNames, named? name = some (.switch s) := by
      cases s <;> decide
    exact hlisted name (List.mem_cons.mpr h)

theorem Switch.Names.not_mem {s : Switch} {name : String} (h : s.Names name) : '=' ∉ name.toList := by
  have hlisted : ∀ name ∈ s.name :: s.otherNames, '=' ∉ name.toList := by
    cases s <;> decide
  exact hlisted name (List.mem_cons.mpr h)

theorem Switch.Names.ne_empty {s : Switch} {name : String} (h : s.Names name) : name ≠ "" := by
  have hlisted : ∀ name ∈ s.name :: s.otherNames, name ≠ "" := by
    cases s <;> decide
  exact hlisted name (List.mem_cons.mpr h)

/-! ## Words -/

/-- An option as it is written. -/
inductive Word where
  | switch (s : Switch) (name : String)
  /-- The text of a setting follows its name after `=`. -/
  | attached (s : Setting) (text : String)
  /-- The text of a setting is the argument behind its name. -/
  | apart (s : Setting) (text : String)
deriving DecidableEq, Repr

namespace Word

/-- The option of a word. -/
def choice : Word → Choice
  | switch s _ => .switch s
  | attached s _ | apart s _ => .setting s

/-- What stands for a word on the command line. -/
def arguments : Word → List String
  | switch _ name => ["--" ++ name]
  | attached s text => ["--" ++ (s.name ++ ("=" ++ text))]
  | apart s text => ["--" ++ s.name, text]

/-- Words that cannot be mistaken: a switch has one of its names, and a text that stands apart does not
    begin like an option. -/
def Readable : Word → Prop
  | switch s name => s.Names name
  | attached _ _ => True
  | apart _ text => text.toList.head? ≠ some '-'

/-- What a word changes in what has been read. -/
def obey (w : Word) (r : Reading) : Except Stop Reading :=
  match w with
  | switch s _ => r.turnOn s
  | attached s text | apart s text => r.give s text

end Word

example : [Word.switch .largePages "largepages", .apart .affinity "0xF0", .attached .seed "7"].flatMap
    Word.arguments = ["--largepages", "--affinity", "0xF0", "--seed=7"] := by decide

/-! ## Arguments -/

namespace Reading

variable {r r' q q' : Reading} {name text : String}

/-- An argument of two dashes and a name is the option of this name. -/
theorem argument_of_name (hname : '=' ∉ name.toList) :
    r.argument ("--" ++ name) = r.option name none := by
  have hchars : ("--" ++ name).toList = '-' :: '-' :: name.toList := by
    rw [String.toList_append]
    rfl
  have hall : ∀ c ∈ name.toList, decide (c ≠ '=') = true := by
    rintro c hc
    exact decide_eq_true fun heq => hname (heq ▸ hc)
  have htake : name.toList.takeWhile (· ≠ '=') = name.toList := List.takeWhile_eq_self_iff.mpr hall
  have hdrop : name.toList.dropWhile (· ≠ '=') = [] := List.dropWhile_eq_nil_iff.mpr hall
  simp only [argument, hchars, htake, hdrop, String.ofList_toList]

/-- What stands behind `=` is attached to the option. -/
theorem argument_of_attached (s : Setting) :
    r.argument ("--" ++ (s.name ++ ("=" ++ text))) = r.option s.name (some text) := by
  have hchars : ("--" ++ (s.name ++ ("=" ++ text))).toList =
      '-' :: '-' :: (s.name.toList ++ '=' :: text.toList) := by
    simp only [String.toList_append]
    rfl
  have htake := takeWhile_name_append s text.toList
  have hdrop : (s.name.toList ++ '=' :: text.toList).dropWhile (· ≠ '=') = '=' :: text.toList := by
    have hsplit := List.takeWhile_append_dropWhile (p := (· ≠ '=')) (l := s.name.toList ++ '=' :: text.toList)
    rw [htake] at hsplit
    exact List.append_cancel_left hsplit
  simp only [argument, hchars, htake, hdrop, String.ofList_toList]

theorem argument_of_plain (htext : text.toList.head? ≠ some '-') : r.argument text = r.plain text := by
  unfold argument
  split
  · rename_i h
    rw [h] at htext
    exact absurd rfl htext
  · rename_i h
    rw [h] at htext
    exact absurd rfl htext
  · rfl

theorem arguments_cons {arg : String} (harg : arg ≠ "--") (h : r.argument arg = .ok r')
    (rest : List String) : r.arguments (arg :: rest) = r'.arguments rest := by
  rw [Reading.arguments.eq_def]
  simp only [if_neg harg, h]
  rfl

/-- An argument with something behind two dashes does not end the options. -/
theorem dashes_append_ne (hname : name ≠ "") : "--" ++ name ≠ "--" := by
  intro h
  have hlength := congrArg String.length h
  rw [String.length_append] at hlength
  have hzero : name.length = 0 := by
    have hdashes : "--".length = 2 := rfl
    omega
  exact hname (String.length_eq_zero_iff.mp hzero)

/-! ## One word -/

theorem option_of_switch {s : Switch} (hname : s.Names name) (hsettle : r.settle = .ok q) :
    r.option name none = q.turnOn s := by
  simp only [option, Choice.named?_eq_switch.mpr hname, hsettle]
  rfl

theorem option_of_setting {s : Setting} (hsettle : r.settle = .ok q) :
    (∀ text, r.option s.name (some text) = q.give s text) ∧
      r.option s.name none = .ok { q with pending := some (s, none) } := by
  have hname := Choice.named?_eq_setting.mpr (Eq.refl s.name)
  constructor
  · intro text
    simp only [option, hname, hsettle]
    rfl
  · simp only [option, hname, hsettle]
    rfl

theorem settle_of_settled (h : r.pending = none) : r.settle = .ok r := by
  rw [settle, h]

theorem pending_of_obey {w : Word} (hpending : q.pending = none) (h : w.obey q = .ok q') :
    q'.pending = none := by
  cases w with
  | switch s name =>
    obtain ⟨-, rfl⟩ := turnOn_eq_ok h
    exact hpending
  | attached s text | apart s text =>
    obtain ⟨-, -, hkept, -⟩ := give_eq_ok h
    rw [hkept, hpending]

/-- The step that reads a word. Once the value that was waited for has been looked at, the word is obeyed,
    although a text that stands apart is itself waited for at first. -/
theorem arguments_of_word {w : Word} (hw : w.Readable) (hsettle : r.settle = .ok q)
    (hobey : w.obey q = .ok q') :
    ∃ r' : Reading, (∀ rest, r.arguments (w.arguments ++ rest) = r'.arguments rest) ∧ r'.settle = .ok q' := by
  have hpending : q.pending = none := pending_of_settle hsettle
  have hsettled : q'.settle = .ok q' := settle_of_settled (pending_of_obey hpending hobey)
  cases w with
  | switch s name =>
    have hne : "--" ++ name ≠ "--" := dashes_append_ne hw.ne_empty
    have hstep : r.argument ("--" ++ name) = .ok q' := by
      rw [argument_of_name hw.not_mem, option_of_switch hw hsettle]
      exact hobey
    exact ⟨q', fun rest => arguments_cons hne hstep rest, hsettled⟩
  | attached s text =>
    have hne : "--" ++ (s.name ++ ("=" ++ text)) ≠ "--" := by
      apply dashes_append_ne
      cases s <;> simp [Setting.name]
    have hstep : r.argument ("--" ++ (s.name ++ ("=" ++ text))) = .ok q' := by
      rw [argument_of_attached, (option_of_setting hsettle).1]
      exact hobey
    exact ⟨q', fun rest => arguments_cons hne hstep rest, hsettled⟩
  | apart s text =>
    have hne : "--" ++ s.name ≠ "--" := by
      apply dashes_append_ne
      cases s <;> decide
    have hplain : text ≠ "--" := by
      rintro rfl
      exact hw rfl
    let waiting : Reading := { q with pending := some (s, none) }
    let met : Reading := { q with pending := some (s, some text) }
    have hname : r.argument ("--" ++ s.name) = .ok waiting := by
      rw [argument_of_name (not_mem_name s), (option_of_setting hsettle).2]
    have htext : waiting.argument text = .ok met := argument_of_plain hw
    have hmet : met.settle = .ok q' := by
      have hself : ({ q with pending := none } : Reading) = q := by
        rw [← hpending]
      show Reading.give { q with pending := none } s text = .ok q'
      rw [hself]
      exact hobey
    refine ⟨met, fun rest => ?_, hmet⟩
    calc r.arguments (("--" ++ s.name) :: text :: rest)
        = waiting.arguments (text :: rest) := arguments_cons hne hname _
      _ = met.arguments rest := arguments_cons hplain htext rest

/-! ## All words -/

/-- **A line of words is read as its words are obeyed.** By induction on the words; only the value that is
    still waited for tells the reader from one that obeys at once. -/
theorem arguments_of_words {words : List Word} (hwords : ∀ w ∈ words, w.Readable)
    (hsettle : r.settle = .ok q) (hobey : words.foldlM (fun q w => w.obey q) q = .ok q') :
    r.arguments (words.flatMap Word.arguments) = .ok q' := by
  induction words generalizing r q with
  | nil =>
    cases hobey
    exact hsettle
  | cons w words ih =>
    rw [List.foldlM_cons] at hobey
    obtain ⟨next, hnext, hrest⟩ := ok_of_bind hobey
    obtain ⟨r', harguments, hsettle'⟩ := arguments_of_word (hwords w List.mem_cons_self) hsettle hnext
    rw [List.flatMap_cons, harguments]
    exact ih (fun w hw => hwords w (List.mem_cons_of_mem _ hw)) hsettle' hrest

end Reading

end NonceSweep.CommandLine
