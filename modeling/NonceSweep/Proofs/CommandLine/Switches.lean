import NonceSweep.Proofs.CommandLine.Words

/-!
# Which switches an accepted command line turns on

A value never begins with a dash, so an argument that reads like a switch is one wherever it stands: the
switches of an accepted command line are those that are among its arguments.

## Main results

- `has_of_parse`: an accepted command line turns a switch on exactly if it contains one of its names
-/

namespace NonceSweep.CommandLine

/-- Settings have no part in the switches. -/
theorem write_keeps_switches {s : Setting} {value : String} {i i' : Invocation}
    (h : s.write value i = .ok i') : i'.switches = i.switches := by
  cases s with
  | threads | init | nonces | seed =>
    obtain ⟨_, -, rfl⟩ := ok_of_map h
    rfl
  | affinity =>
    simp only [Setting.write] at h
    split at h
    · cases h
      rfl
    · cases h
  | expect =>
    obtain ⟨fingerprint, -, rfl⟩ := write_expect h
    rfl

namespace Reading

variable {r r' : Reading} {s : Switch}

theorem settle_keeps_switches (h : r.settle = .ok r') :
    r'.invocation.switches = r.invocation.switches := by
  unfold settle at h
  split at h
  · cases h
    rfl
  · cases h
  · obtain ⟨-, -, -, hwrite⟩ := give_eq_ok h
    exact write_keeps_switches hwrite

/-- The step that reads an option turns on the switch of this name, if it is one. -/
theorem switches_of_option {name : String} {value : Option String} (h : r.option name value = .ok r') :
    s ∈ r'.invocation.switches ↔ s ∈ r.invocation.switches ∨ (value = none ∧ s.Names name) := by
  obtain ⟨q, hsettle, hcases⟩ := option_eq_ok h
  rw [← settle_keeps_switches hsettle]
  rcases hcases with ⟨t, text, -, rfl, hgive⟩ | ⟨t, hname, -, rfl⟩ | ⟨w, hchoice, rfl, hturn⟩
  · obtain ⟨-, -, -, hwrite⟩ := give_eq_ok hgive
    rw [write_keeps_switches hwrite]
    simp
  · -- the name of a setting is no name of a switch
    have hno : ¬ s.Names name := by
      intro hs
      have hswitch := Choice.named?_eq_switch.mpr hs
      rw [Choice.named?_eq_setting.mpr hname] at hswitch
      cases hswitch
    simp [hno]
  · obtain ⟨-, rfl⟩ := turnOn_eq_ok hturn
    have hsame : s.Names name ↔ s = w := by
      rw [← Choice.named?_eq_switch, hchoice]
      simp [eq_comm]
    simp [hsame]

/-- The step that reads an argument turns a switch on exactly if this is how one of its names is given. -/
theorem switches_of_argument {arg : String} (h : r.argument arg = .ok r') :
    s ∈ r'.invocation.switches ↔
      s ∈ r.invocation.switches ∨ ∃ name, s.Names name ∧ "--" ++ name = arg := by
  have hchars (name : String) : ("--" ++ name).toList = '-' :: '-' :: name.toList := by
    rw [String.toList_append]
    rfl
  by_cases hdashes : ∃ body, arg.toList = '-' :: '-' :: body
  · obtain ⟨body, hbody⟩ := hdashes
    have harg (name : String) : "--" ++ name = arg ↔ name.toList = body := by
      rw [← String.toList_inj, hchars, hbody]
      simp
    rcases argument_of_dashes hbody h with ⟨hwhole, hoption⟩ | ⟨text, hwhole, hoption⟩
    · rw [← hwhole] at hoption
      rw [switches_of_option hoption]
      simp only [true_and, harg]
      refine or_congr_right ⟨fun hs => ⟨_, hs, String.toList_ofList⟩, ?_⟩
      rintro ⟨name, hs, rfl⟩
      rwa [String.ofList_toList]
    · rw [switches_of_option hoption]
      simp only [reduceCtorEq, false_and, or_false, harg]
      refine (or_iff_left ?_).symm
      rintro ⟨name, hs, rfl⟩
      -- no name contains what stands in front of an attached value
      apply hs.not_mem
      rw [hwhole]
      simp
  · obtain ⟨t, -, rfl⟩ := argument_of_no_dashes (fun body hbody => hdashes ⟨body, hbody⟩) h
    refine (or_iff_left ?_).symm
    rintro ⟨name, -, rfl⟩
    exact hdashes ⟨_, hchars name⟩

/-- The run over all arguments, by induction on them. -/
theorem switches_of_arguments {args : List String} (h : r.arguments args = .ok r') :
    s ∈ r'.invocation.switches ↔
      s ∈ r.invocation.switches ∨ ∃ name, s.Names name ∧ "--" ++ name ∈ args := by
  induction args generalizing r with
  | nil =>
    rw [settle_keeps_switches h]
    simp
  | cons arg rest ih =>
    rw [Reading.arguments.eq_def] at h
    by_cases hend : arg = "--"
    · subst hend
      simp only [if_true] at h
      cases rest with
      | nil =>
        rw [settle_keeps_switches h]
        refine (or_iff_left ?_).symm
        rintro ⟨name, hs, hmem⟩
        exact absurd (List.mem_singleton.mp hmem) (dashes_append_ne hs.ne_empty)
      | cons first rest => cases h
    · simp only [if_neg hend] at h
      obtain ⟨q, hstep, hrest⟩ := ok_of_bind h
      rw [ih hrest, switches_of_argument hstep, or_assoc]
      refine or_congr_right ⟨?_, ?_⟩
      · rintro (⟨name, hs, rfl⟩ | ⟨name, hs, hmem⟩)
        · exact ⟨name, hs, List.mem_cons_self⟩
        · exact ⟨name, hs, List.mem_cons_of_mem _ hmem⟩
      · rintro ⟨name, hs, hmem⟩
        rcases List.mem_cons.mp hmem with heq | hmem
        · exact Or.inl ⟨name, hs, heq⟩
        · exact Or.inr ⟨name, hs, hmem⟩

end Reading

/-- What has been read when a command line is accepted. -/
theorem arguments_of_parse {args : List String} {i : Invocation} (h : parse args = .ok i) :
    ∃ r, Reading.start.arguments args = .ok r ∧ conflict? r.invocation = none ∧ i = r.invocation := by
  obtain ⟨r, hread, hreturn⟩ := ok_of_bind h
  split at hreturn
  · cases hreturn
  · rename_i hconflict
    cases hreturn
    exact ⟨r, hread, hconflict, rfl⟩

/-- An accepted command line turns a switch on exactly if one of its names is given as an argument. -/
theorem has_of_parse {args : List String} {i : Invocation} (h : parse args = .ok i) (s : Switch) :
    i.has s = true ↔ ∃ name, s.Names name ∧ "--" ++ name ∈ args := by
  obtain ⟨r, hread, -, rfl⟩ := arguments_of_parse h
  have hswitches := Reading.switches_of_arguments (s := s) hread
  rw [Invocation.has, decide_eq_true_iff, hswitches]
  simp [Reading.start, Invocation.standard]

end NonceSweep.CommandLine
