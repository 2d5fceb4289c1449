import NonceSweep.CommandLine.Reading
import Mathlib.Data.List.Basic
import Mathlib.Data.List.TakeWhile

/-!
# What a command line gives to an option

Options are read one argument at a time, and the value of a setting may come late. What it comes to can be
told at sight: the text that is given to a setting is attached to its name with `=`, or it is the argument
that follows the name.

## Main results

- `textOf`: the text that a command line gives to a setting
- `Choice.named?_eq_setting`: a setting has one name
- `expect_of_parse`: the fingerprint that an accepted command line expects
-/

namespace NonceSweep.CommandLine

/-! ## Texts -/

/-- The text that an argument attaches to the name of a setting. -/
def attached? (s : Setting) (argument : String) : Option String :=
  (('-' :: '-' :: (s.name.toList ++ ['='])).isPrefixOf? argument.toList).map String.ofList

/-- The text that a command line gives to a setting. -/
def textOf (s : Setting) : List String → Option String
  | [] => none
  | argument :: rest =>
    if argument = "--" ++ s.name then rest.head? else (attached? s argument).or (textOf s rest)

/-! ## Names -/

/-- A setting has one name, and no other option has it. -/
theorem Choice.named?_eq_setting {name : String} {s : Setting} :
    Choice.named? name = some (.setting s) ↔ name = s.name := by
  constructor
  · intro h
    -- help, the version and all switches are looked for first
    unfold named? at h
    split at h
    · cases h
    · split at h
      · cases h
      · split at h
        · cases h
        · obtain ⟨found, hfound, hs⟩ := Option.map_eq_some_iff.mp h
          cases hs
          have hname := List.find?_some hfound
          exact (beq_iff_eq.mp hname).symm
  · rintro rfl
    cases s <;> decide

theorem not_mem_name (s : Setting) : '=' ∉ s.name.toList := by
  cases s <;> decide

theorem takeWhile_name (s : Setting) :
    s.name.toList.takeWhile (· ≠ '=') = s.name.toList := by
  rw [List.takeWhile_eq_self_iff]
  intro c hc
  apply decide_eq_true
  rintro rfl
  exact not_mem_name s hc

/-- Whatever follows `=`, the name is the part before it. -/
theorem takeWhile_name_append (s : Setting) (text : List Char) :
    (s.name.toList ++ '=' :: text).takeWhile (· ≠ '=') = s.name.toList := by
  rw [List.takeWhile_append, takeWhile_name, if_pos rfl, List.takeWhile_cons_of_neg]
  · exact List.append_nil _
  · simp

/-! ## One argument -/

variable {s : Setting} {argument : String}

theorem eq_flag_iff : argument = "--" ++ s.name ↔ argument.toList = '-' :: '-' :: s.name.toList := by
  rw [← String.toList_inj, String.toList_append]
  rfl

theorem attached?_eq_some {text : String} :
    attached? s argument = some text ↔
      argument.toList = '-' :: '-' :: (s.name.toList ++ '=' :: text.toList) := by
  unfold attached?
  rw [Option.map_eq_some_iff]
  constructor
  · rintro ⟨found, hfound, rfl⟩
    rw [← List.isPrefixOf?_eq_some_iff_append_eq.mp hfound, String.toList_ofList]
    simp
  · intro h
    refine ⟨text.toList, List.isPrefixOf?_eq_some_iff_append_eq.mpr ?_, String.ofList_toList⟩
    rw [h]
    simp

theorem attached?_eq_none (h : ∀ text, argument.toList ≠ '-' :: '-' :: (s.name.toList ++ '=' :: text)) :
    attached? s argument = none := by
  rw [Option.eq_none_iff_forall_not_mem]
  intro text htext
  exact h _ (attached?_eq_some.mp htext)

/-- After a bare name, the text is the next argument. -/
theorem textOf_of_name (h : argument.toList = '-' :: '-' :: s.name.toList) (rest : List String) :
    textOf s (argument :: rest) = rest.head? := by
  rw [textOf, if_pos (eq_flag_iff.mpr h)]

example : textOf .seed ["--json", "--seed", "7"] = some "7" := by decide

/-- After a name with `=`, the text is attached. -/
theorem textOf_of_attached {text : List Char}
    (h : argument.toList = '-' :: '-' :: (s.name.toList ++ '=' :: text)) (rest : List String) :
    textOf s (argument :: rest) = some (String.ofList text) := by
  have hne : ¬ argument = "--" ++ s.name := by
    rw [eq_flag_iff, h]
    simp
  have hattached : attached? s argument = some (String.ofList text) := by
    rw [attached?_eq_some, h, String.toList_ofList]
  rw [textOf, if_neg hne, hattached]
  rfl

example : textOf .seed ["--threads=2", "--seed=", "9"] = some "" := by decide

/-- An argument that does not begin with the name is passed over. -/
theorem textOf_of_other (hname : ∀ body, argument.toList = '-' :: '-' :: body →
    body.takeWhile (· ≠ '=') ≠ s.name.toList) (rest : List String) :
    textOf s (argument :: rest) = textOf s rest := by
  have hne : ¬ argument = "--" ++ s.name := by
    rw [eq_flag_iff]
    intro h
    exact hname _ h (takeWhile_name s)
  have hattached : attached? s argument = none := by
    apply attached?_eq_none
    intro text h
    exact hname _ h (takeWhile_name_append s text)
  rw [textOf, if_neg hne, hattached]
  rfl

/-- What is found in front of the first `=` and behind it. -/
theorem body_cases (body : List Char) :
    (body.dropWhile (· ≠ '=') = [] ∧ body = body.takeWhile (· ≠ '=')) ∨
      ∃ text, body.dropWhile (· ≠ '=') = '=' :: text ∧
        body = body.takeWhile (· ≠ '=') ++ '=' :: text := by
  have hsplit := List.takeWhile_append_dropWhile (p := (· ≠ '=')) (l := body)
  cases hend : body.dropWhile (· ≠ '=') with
  | nil =>
    rw [hend, List.append_nil] at hsplit
    exact .inl ⟨rfl, hsplit.symm⟩
  | cons c text =>
    -- what is dropped first is not like what was taken
    have hc : c = '=' := by
      have hfirst := List.head?_dropWhile_not (· ≠ '=') body
      rw [hend] at hfirst
      simpa using hfirst
    subst hc
    rw [hend] at hsplit
    exact .inr ⟨text, rfl, hsplit.symm⟩

/-! ## Values -/

theorem ok_of_bind {α β ε : Type} {x : Except ε α} {f : α → Except ε β} {b : β}
    (h : x >>= f = .ok b) : ∃ a, x = .ok a ∧ f a = .ok b := by
  cases x with
  | error fault => cases h
  | ok a => exact ⟨a, rfl, h⟩

theorem ok_of_map {α β ε : Type} {x : Except ε α} {f : α → β} {b : β} (h : x.map f = .ok b) :
    ∃ a, x = .ok a ∧ f a = b := by
  cases x with
  | error fault => cases h
  | ok a => exact ⟨a, rfl, Except.ok.inj h⟩

/-- A text that is accepted for the expected fingerprint is one. -/
theorem write_expect {value : String} {i i' : Invocation}
    (h : Setting.write .expect value i = .ok i') :
    ∃ fingerprint, Fingerprint.parse value = .ok fingerprint ∧
      i' = { i with expect := some fingerprint } := by
  simp only [Setting.write] at h
  cases hparse : Fingerprint.parse value with
  | error fault =>
    rw [hparse] at h
    cases h
  | ok fingerprint =>
    rw [hparse] at h
    cases h
    exact ⟨fingerprint, rfl, rfl⟩

/-- The other settings have no part in the expected fingerprint. -/
theorem write_keeps_expect {value : String} {i i' : Invocation} (hs : s ≠ .expect)
    (h : s.write value i = .ok i') : i'.expect = i.expect := by
  cases s with
  | expect => exact absurd rfl hs
  | affinity =>
    simp only [Setting.write] at h
    cases hmask : parseMask value with
    | error fault =>
      rw [hmask] at h
      cases h
    | ok mask =>
      rw [hmask] at h
      cases h
      rfl
  | threads | init | nonces | seed =>
    obtain ⟨_, -, rfl⟩ := ok_of_map h
    rfl

/-! ## Reading -/

namespace Reading

/-- The text that the expected fingerprint has still to be read from. -/
def owed (r : Reading) (rest : List String) : Option String :=
  match r.pending with
  | some (.expect, text) => text.or rest.head?
  | _ => textOf .expect rest

/-- What the fingerprint that is expected in the end has to do with what has been read and with the text
    that is owed. -/
structure Expects (r : Reading) (owed : Option String) (final : Option Fingerprint) : Prop where
  given : .expect ∈ r.settings → owed = none
  none : owed = none → final = r.invocation.expect
  some : ∀ text, owed = some text →
    ∃ fingerprint, Fingerprint.parse text = .ok fingerprint ∧ final = some fingerprint

variable {r r' : Reading} {owed : Option String} {final : Option Fingerprint}

/-- Only the settings and the expected fingerprint matter. -/
theorem Expects.of_eq (h : r'.Expects owed final) (hsettings : r'.settings = r.settings)
    (hexpect : r'.invocation.expect = r.invocation.expect) : r.Expects owed final where
  given := hsettings ▸ h.given
  none := hexpect ▸ h.none
  some := h.some

theorem give_eq_ok {value : String} (h : r.give s value = .ok r') :
    s ∉ r.settings ∧ r'.settings = r.settings ++ [s] ∧ r'.pending = r.pending ∧
      s.write value r.invocation = .ok r'.invocation := by
  unfold give at h
  by_cases hgiven : s ∈ r.settings
  · rw [if_pos hgiven] at h
    cases h
  · rw [if_neg hgiven] at h
    cases hwrite : s.write value r.invocation with
    | error reason =>
      rw [hwrite] at h
      cases h
    | ok invocation =>
      rw [hwrite] at h
      cases h
      exact ⟨hgiven, rfl, rfl, rfl⟩

/-- The step that gives a value. The expected fingerprint cannot be given again, so nothing else is owed
    for it. -/
theorem Expects.of_give {value : String} (hgive : r.give s value = .ok r')
    (h : r'.Expects owed final) :
    r.Expects (if s = .expect then .some value else owed) final := by
  obtain ⟨hnew, hsettings, -, hwrite⟩ := give_eq_ok hgive
  by_cases hs : s = .expect
  · subst hs
    rw [if_pos rfl]
    obtain ⟨fingerprint, hparse, hwritten⟩ := write_expect hwrite
    -- it is given now, so nothing more can be owed for it
    have hnone : owed = .none := h.given (by rw [hsettings]; simp)
    constructor
    · intro hgiven
      exact absurd hgiven hnew
    · intro habsurd
      cases habsurd
    · intro text htext
      cases htext
      exact ⟨fingerprint, hparse, by rw [h.none hnone, hwritten]⟩
  · rw [if_neg hs]
    constructor
    · intro hgiven
      apply h.given
      rw [hsettings]
      exact List.mem_append_left _ hgiven
    · intro hnone
      rw [h.none hnone, write_keeps_expect hs hwrite]
    · exact h.some

theorem pending_of_settle (h : r.settle = .ok r') : r'.pending = .none := by
  unfold settle at h
  cases hpending : r.pending with
  | none =>
    rw [hpending] at h
    cases h
    exact hpending
  | some waiting =>
    obtain ⟨s, text⟩ := waiting
    rw [hpending] at h
    cases text with
    | none => cases h
    | some text =>
      obtain ⟨-, -, hkept, -⟩ := give_eq_ok h
      exact hkept

theorem owed_of_settled {rest : List String} (h : r.pending = .none) :
    r.owed rest = textOf .expect rest := by
  unfold Reading.owed
  rw [h]

theorem owed_of_pending {rest : List String} {text : Option String}
    (h : r.pending = .some (s, text)) :
    r.owed rest = if s = .expect then text.or rest.head? else textOf .expect rest := by
  unfold Reading.owed
  rw [h]
  cases s <;> rfl

/-- The step that gives the pending setting its value. -/
theorem Expects.of_settle {rest : List String} (hsettle : r.settle = .ok r')
    (h : r'.Expects (textOf .expect rest) final) : r.Expects (r.owed rest) final := by
  unfold settle at hsettle
  cases hpending : r.pending with
  | none =>
    rw [hpending] at hsettle
    cases hsettle
    rwa [owed_of_settled hpending]
  | some waiting =>
    obtain ⟨s, text⟩ := waiting
    rw [hpending] at hsettle
    cases text with
    | none => cases hsettle
    | some text =>
      rw [owed_of_pending hpending]
      exact (h.of_give hsettle).of_eq rfl rfl

/-! ## Steps -/

variable {arg name : String} {rest : List String}

theorem turnOn_eq_ok {w : Switch} (h : r.turnOn w = .ok r') :
    ¬ r.invocation.has w ∧
      r' = { r with invocation := { r.invocation with switches := r.invocation.switches ++ [w] } } := by
  unfold turnOn at h
  by_cases hon : r.invocation.has w
  · rw [if_pos hon] at h
    cases h
  · rw [if_neg hon] at h
    cases h
    exact ⟨hon, rfl⟩

/-- An option that does not end the reading is a setting with a value, a setting without one, or a
    switch. -/
theorem option_eq_ok {value : Option String} (h : r.option name value = .ok r') :
    ∃ q, r.settle = .ok q ∧
      ((∃ s text, name = Setting.name s ∧ value = .some text ∧ q.give s text = .ok r') ∨
        (∃ s, name = Setting.name s ∧ value = .none ∧ r' = { q with pending := .some (s, .none) }) ∨
        (∃ w, Choice.named? name = .some (.switch w) ∧ value = .none ∧ q.turnOn w = .ok r')) := by
  unfold option at h
  cases hchoice : Choice.named? name with
  | none =>
    rw [hchoice] at h
    cases h
  | some choice =>
    rw [hchoice] at h
    cases choice with
    | setting s =>
      have hname := Choice.named?_eq_setting.mp hchoice
      cases value with
      | none =>
        obtain ⟨q, hsettle, hreturn⟩ := ok_of_bind h
        cases hreturn
        exact ⟨q, hsettle, .inr (.inl ⟨s, hname, rfl, rfl⟩)⟩
      | some text =>
        obtain ⟨q, hsettle, hgive⟩ := ok_of_bind h
        exact ⟨q, hsettle, .inl ⟨s, text, hname, rfl, hgive⟩⟩
    | switch w =>
      cases value with
      | none =>
        obtain ⟨q, hsettle, hturn⟩ := ok_of_bind h
        exact ⟨q, hsettle, .inr (.inr ⟨w, rfl, rfl, hturn⟩)⟩
      | some text => cases h
    | help | version =>
      cases value with
      | none =>
        obtain ⟨q, -, habsurd⟩ := ok_of_bind h
        cases habsurd
      | some text => cases h

/-- The step that reads an option. After the name of the setting that is looked for, its text is attached
    or comes next; after another name, the text comes later. -/
theorem Expects.of_option {value : Option String} (hstep : r.option name value = .ok r')
    (hsame : name = Setting.name .expect → textOf .expect (arg :: rest) = value.or rest.head?)
    (hother : name ≠ Setting.name .expect → textOf .expect (arg :: rest) = textOf .expect rest)
    (h : r'.Expects (r'.owed rest) final) : r.Expects (r.owed (arg :: rest)) final := by
  have hnext : ∀ s, name = Setting.name s → textOf .expect (arg :: rest) =
      if s = .expect then value.or rest.head? else textOf .expect rest := by
    intro s hname
    by_cases hs : s = .expect
    · subst hs
      rw [if_pos rfl, hsame hname]
    · rw [if_neg hs]
      apply hother
      rw [hname]
      revert hs
      cases s <;> decide
  obtain ⟨q, hsettle, hcases⟩ := option_eq_ok hstep
  -- whatever comes next, the value that was waited for is looked at first
  have hsettled := pending_of_settle hsettle
  apply Expects.of_settle hsettle
  rcases hcases with ⟨s, text, hname, rfl, hgive⟩ | ⟨s, hname, rfl, rfl⟩ |
    ⟨w, hchoice, -, hturn⟩
  · obtain ⟨-, -, hpending, -⟩ := give_eq_ok hgive
    rw [owed_of_settled (hpending.trans hsettled)] at h
    rw [hnext s hname]
    exact h.of_give hgive
  · rw [owed_of_pending rfl] at h
    rw [hnext s hname]
    exact h.of_eq rfl rfl
  · obtain ⟨-, hr'⟩ := turnOn_eq_ok hturn
    have hpending : r'.pending = .none := by rw [hr', hsettled]
    rw [owed_of_settled hpending] at h
    rw [hother]
    · exact h.of_eq (by rw [hr']) (by rw [hr'])
    · -- a switch has another name than a setting
      rintro rfl
      have hsetting : Choice.named? (Setting.name .expect) = .some (.setting .expect) :=
        Choice.named?_eq_setting.mpr rfl
      rw [hsetting] at hchoice
      cases hchoice

/-- An argument with two dashes is read as a name, with the text behind `=` if there is one. -/
theorem argument_of_dashes {body : List Char} (h : arg.toList = '-' :: '-' :: body)
    (hstep : r.argument arg = .ok r') :
    (body = body.takeWhile (· ≠ '=') ∧
      r.option (String.ofList (body.takeWhile (· ≠ '='))) .none = .ok r') ∨
    ∃ text, body = body.takeWhile (· ≠ '=') ++ '=' :: text ∧
      r.option (String.ofList (body.takeWhile (· ≠ '='))) (.some (String.ofList text)) = .ok r' := by
  simp only [argument, h] at hstep
  rcases body_cases body with ⟨hend, hbody⟩ | ⟨text, hend, hbody⟩
  · rw [hend] at hstep
    exact .inl ⟨hbody, hstep⟩
  · rw [hend] at hstep
    exact .inr ⟨text, hbody, hstep⟩

theorem letter_ne_ok (c : Char) : r.letter c ≠ .ok r' := by
  intro h
  unfold letter at h
  split at h
  · obtain ⟨q, -, habsurd⟩ := ok_of_bind h
    cases habsurd
  · obtain ⟨q, -, habsurd⟩ := ok_of_bind h
    cases habsurd
  · cases h

/-- An argument without two dashes is a value that is waited for. -/
theorem argument_of_no_dashes (h : ∀ body, arg.toList ≠ '-' :: '-' :: body)
    (hstep : r.argument arg = .ok r') :
    ∃ s, r.pending = .some (s, .none) ∧ r' = { r with pending := .some (s, .some arg) } := by
  have hplain : r.plain arg = .ok r' := by
    unfold argument at hstep
    split at hstep
    · exact absurd ‹_› (h _)
    · exact absurd hstep (letter_ne_ok _)
    · exact hstep
  unfold plain at hplain
  split at hplain
  · cases hplain
    exact ⟨_, ‹_›, rfl⟩
  · cases hplain

/-- The step that reads one argument. -/
theorem Expects.of_argument (hstep : r.argument arg = .ok r')
    (h : r'.Expects (r'.owed rest) final) : r.Expects (r.owed (arg :: rest)) final := by
  -- an argument with two dashes names an option, any other can only be a value
  by_cases hdashes : ∃ body, arg.toList = '-' :: '-' :: body
  · obtain ⟨body, hbody⟩ := hdashes
    have hother (hname : String.ofList (body.takeWhile (· ≠ '=')) ≠ Setting.name .expect) :
        textOf .expect (arg :: rest) = textOf .expect rest := by
      apply textOf_of_other
      intro body' hbody' htake
      rw [hbody] at hbody'
      cases hbody'
      apply hname
      rw [htake, String.ofList_toList]
    have htake (hname : String.ofList (body.takeWhile (· ≠ '=')) = Setting.name .expect) :
        body.takeWhile (· ≠ '=') = (Setting.name .expect).toList := by
      rw [← hname, String.toList_ofList]
    rcases argument_of_dashes hbody hstep with ⟨hwhole, hoption⟩ | ⟨text, hwhole, hoption⟩
    · refine Expects.of_option hoption ?_ hother h
      intro hname
      apply textOf_of_name
      rw [hbody, hwhole, htake hname]
    · refine Expects.of_option hoption ?_ hother h
      intro hname
      apply textOf_of_attached
      rw [hbody, hwhole, htake hname]
  · have hlater : textOf .expect (arg :: rest) = textOf .expect rest :=
      textOf_of_other (fun body hbody => absurd ⟨body, hbody⟩ hdashes) rest
    obtain ⟨s, hpending, rfl⟩ :=
      argument_of_no_dashes (fun body hbody => hdashes ⟨body, hbody⟩) hstep
    rw [owed_of_pending rfl] at h
    rw [owed_of_pending hpending, hlater]
    exact h.of_eq rfl rfl

/-- The step that ends the reading: no text comes any more. -/
theorem Expects.of_end (hrest : textOf .expect rest = .none) (h : r.settle = .ok r') :
    r.Expects (r.owed rest) r'.invocation.expect := by
  apply Expects.of_settle h
  rw [hrest]
  constructor
  · intro
    rfl
  · intro
    rfl
  · intro text habsurd
    cases habsurd

/-- The run over all arguments, by induction on them. -/
theorem expects_of_arguments (h : r.arguments rest = .ok r') :
    r.Expects (r.owed rest) r'.invocation.expect := by
  -- the invariant is carried backwards: what holds after a step is brought to before it
  induction rest generalizing r with
  | nil => exact Expects.of_end rfl h
  | cons arg rest ih =>
    unfold arguments at h
    by_cases hdashes : arg = "--"
    · subst hdashes
      rw [if_pos rfl] at h
      cases rest with
      -- nothing may stand behind the two dashes
      | nil => exact Expects.of_end (by decide) h
      | cons first rest => cases h
    · rw [if_neg hdashes] at h
      obtain ⟨q, hstep, hrest⟩ := ok_of_bind h
      exact (ih hrest).of_argument hstep

end Reading

/-- **An accepted command line expects the fingerprint that is given to it, and none if none is given.** -/
theorem expect_of_parse {arguments : List String} {i : Invocation} (h : parse arguments = .ok i) :
    (textOf .expect arguments = none → i.expect = none) ∧
      ∀ text, textOf .expect arguments = some text →
        ∃ fingerprint, Fingerprint.parse text = .ok fingerprint ∧ i.expect = some fingerprint := by
  obtain ⟨last, hlast, hreturn⟩ := ok_of_bind h
  have hinvocation : i = last.invocation := by
    split at hreturn
    · cases hreturn
    · cases hreturn
      rfl
  have hexpects := Reading.expects_of_arguments hlast
  rw [Reading.owed_of_settled rfl] at hexpects
  rw [hinvocation]
  exact ⟨hexpects.none, hexpects.some⟩

end NonceSweep.CommandLine
