import Mathlib.Data.List.TakeWhile
import CheckerAudit.CommandLine.Execute
import CheckerAudit.Proofs.CommandLine.Settings

/-!
# However its options are written, a run gets them

An option is recognised by its looks, and its value is never taken for a command. What has been read
of a command line holds the settings made so far, the last of which may still have to be looked at,
and an option in any of its spellings adds one. The program without a command and its command for a
run read alike.
-/
namespace CheckerAudit.CommandLine

/-! ### Words -/

section Words

variable {c : Command} {s : State}

theorem name_ne_nil (p : Parameter) : p.name.toList ≠ [] := by
  cases p <;> decide

/-- No name has an equals sign in it. -/
theorem ne_equals_of_mem_name (p : Parameter) :
    ∀ x ∈ p.name.toList, decide (x ≠ '=') = true := by
  have hequals : '=' ∉ p.name.toList := by cases p <;> decide
  intro x hx
  exact decide_eq_true (ne_of_mem_of_not_mem hx hequals)

/-- No command's name begins with a dash. -/
theorem subcommand?_of_dash (c : Command) {arg : String} (h : arg.toList.head? = some '-') :
    c.subcommand? arg = none := by
  refine List.find?_eq_none.mpr fun sub _ hname => ?_
  obtain rfl : sub.name = arg := of_decide_eq_true hname
  revert h
  cases sub <;> decide

theorem classify_long (hliteral : s.literal = false) {arg : String} {rest : List Char}
    (harg : arg.toList = '-' :: '-' :: rest) (hrest : rest ≠ []) :
    classify c s arg = splitLong rest := by
  have hcommand : c.subcommand? arg = none := subcommand?_of_dash c (by rw [harg]; rfl)
  rw [classify, hliteral, hcommand, ite_self, harg]
  cases rest with
  | nil => exact absurd rfl hrest
  | cons x rest => rfl

theorem classify_name (hliteral : s.literal = false) (p : Parameter) :
    classify c s ("--" ++ p.name) = .long p.name none := by
  have harg : ("--" ++ p.name).toList = '-' :: '-' :: p.name.toList := by simp
  have hname := ne_equals_of_mem_name p
  rw [classify_long hliteral harg (name_ne_nil p), splitLong,
    List.takeWhile_eq_self_iff.mpr hname, List.dropWhile_eq_nil_iff.mpr hname,
    String.ofList_toList]

/-- The first equals sign ends the name, so one in the value does no harm. -/
theorem classify_joined (hliteral : s.literal = false) (p : Parameter) (text : String) :
    classify c s ("--" ++ p.name ++ "=" ++ text) = .long p.name (some text) := by
  have harg : ("--" ++ p.name ++ "=" ++ text).toList =
      '-' :: '-' :: (p.name.toList ++ '=' :: text.toList) := by simp
  have hname := ne_equals_of_mem_name p
  rw [classify_long hliteral harg (by simp), splitLong, List.takeWhile_append_of_pos hname,
    List.dropWhile_append_of_pos hname, List.takeWhile_cons_of_neg (by decide),
    List.dropWhile_cons_of_neg (by decide), List.append_nil, String.ofList_toList]
  simp only [String.ofList_toList]

theorem classify_letter (hc : c.positionals = []) (hliteral : s.literal = false) {letter : Char}
    (hletter : letter ≠ '-') : classify c s (String.ofList ['-', letter]) = .letters [letter] := by
  have harg : (String.ofList ['-', letter]).toList = ['-', letter] := String.toList_ofList
  have hcommand : c.subcommand? (String.ofList ['-', letter]) = none :=
    subcommand?_of_dash c (by rw [harg]; rfl)
  rw [classify, hliteral, hcommand, ite_self, harg, hc]
  simp [hletter]

/-- Once an argument was recognised, a word without a dash is a value, even a command's name. -/
theorem classify_value (hliteral : s.literal = false) (hrecognised : s.recognised = true)
    {arg : String} (hdash : arg.toList.head? ≠ some '-') : classify c s arg = .value := by
  rw [classify, hliteral, hrecognised]
  cases harg : arg.toList with
  | nil => rfl
  | cons x rest =>
    have hx : x ≠ '-' := by rintro rfl; rw [harg] at hdash; exact hdash rfl
    simp [hx]

end Words

/-! ### States -/

/-- The state with some settings and nothing left to be looked at. -/
def State.ofSettings (settings : List Setting) (recognised : Bool) (filled : Nat) : State where
  values := settings.foldl Setting.give {}
  given := settings.map Setting.parameter
  recognised := recognised
  filled := filled

/-- A state holds some settings, the last of which may still have to be looked at. -/
structure State.Holds (s : State) (settings : List Setting) : Prop where
  literal : s.literal = false
  settled : s.settled = .ok (.ofSettings settings s.recognised s.filled)

section States

variable {s : State} {settings : List Setting}

theorem State.holds_start : ({} : State).Holds [] := ⟨rfl, rfl⟩

theorem State.holds_ofSettings (settings : List Setting) (recognised : Bool) (filled : Nat) :
    (State.ofSettings settings recognised filled).Holds settings := ⟨rfl, rfl⟩

/-- That an argument was recognised changes nothing else. -/
theorem State.settled_recognised (s : State) :
    { s with recognised := true }.settled =
      s.settled.map fun next => { next with recognised := true } := by
  obtain ⟨values, given, pending, recognised, literal, filled⟩ := s
  rcases pending with _ | ⟨p, _ | text⟩
  · rfl
  · rfl
  · simp only [settled, settle]
    by_cases hp : p ∈ given
    · simp only [if_pos hp]
      rfl
    · simp only [if_neg hp]
      cases values.set p text <;> rfl

theorem State.Holds.recognised (h : s.Holds settings) :
    { s with recognised := true }.settled = .ok (.ofSettings settings true s.filled) := by
  rw [settled_recognised, h.settled]
  rfl

variable {x : Setting} {text : String}

/-- A value that waits to be looked at is one more setting. -/
theorem State.settled_pending (hnew : x.parameter ∉ settings.map Setting.parameter)
    (hset : ∀ v : Values, v.set x.parameter text = .ok (x.give v)) (recognised : Bool)
    (filled : Nat) :
    { ofSettings settings recognised filled with
      pending := some (x.parameter, some text) }.settled =
      .ok (.ofSettings (settings ++ [x]) recognised filled) := by
  simp only [settled, settle, ofSettings, if_neg hnew, hset, List.foldl_append, List.foldl_cons,
    List.foldl_nil, List.map_append, List.map_cons, List.map_nil]

/-- An option that is taken at once is one more setting. -/
theorem State.Holds.take (h : s.Holds settings)
    (hnew : x.parameter ∉ settings.map Setting.parameter)
    (hset : ∀ v : Values, v.set x.parameter text = .ok (x.give v)) (c : Command) :
    s.take c x.parameter text = .ok (.ofSettings (settings ++ [x]) true s.filled) := by
  have hhelp : x.parameter ≠ .help := by cases x <;> nofun
  have hversion : x.parameter ≠ .version := by cases x <;> nofun
  simp only [State.take, h.recognised, if_neg hhelp, if_neg hversion]
  exact settled_pending hnew hset true s.filled

end States

/-! ### Options -/

theorem Setting.parameter_mem (x : Setting) : x.parameter ∈ Command.runOptions := by
  cases x <;> simp [parameter, Command.runOptions]

theorem long?_name :
    ∀ c ∈ [Command.top, .run], ∀ p ∈ Command.runOptions, c.long? p.name = some p := by
  decide

theorem short?_verbose : ∀ c ∈ [Command.top, .run], c.short? 'v' = some .verbose := by
  decide

theorem positionals_eq_nil : ∀ c ∈ [Command.top, .run], c.positionals = [] := by
  decide

section Options

variable {c : Command} (hc : c ∈ [Command.top, .run])
include hc

/-- A letter finds its option, and is no dash. -/
theorem Setting.short?_letter {x : Setting} {letter : Char}
    (h : x.parameter.letter? = some letter) :
    letter ≠ '-' ∧ c.short? letter = some x.parameter := by
  cases x with
  | verbose =>
    obtain rfl : 'v' = letter := Option.some.inj h
    exact ⟨by decide, short?_verbose c hc⟩
  | _ => cases h

/-- An option in any of its spellings is one more setting. -/
theorem Spells.parseFrom_append {x : Setting} {args : List String} (h : Spells x args)
    (hformed : x.WellFormed) {s : State} {settings : List Setting} (hs : s.Holds settings)
    (hnew : x.parameter ∉ settings.map Setting.parameter) :
    ∃ next : State, next.Holds (settings ++ [x]) ∧
      ∀ rest, parseFrom c s (args ++ rest) = parseFrom c next rest := by
  have hlong : c.long? x.parameter.name = some x.parameter := long?_name c hc _ x.parameter_mem
  cases h with
  | joined hwrites =>
    obtain ⟨valueName, hvalue⟩ := Setting.valueName?_of_writes hwrites
    have htake := hs.take hnew (Setting.set_of_writes hformed hwrites) c
    refine ⟨_, State.holds_ofSettings _ true s.filled, fun rest => ?_⟩
    rw [List.singleton_append, parseFrom, classify_joined hs.literal]
    simp only [State.takeLong, hlong, hvalue, htake]
  | @separate text hwrites dash =>
    obtain ⟨valueName, hvalue⟩ := Setting.valueName?_of_writes hwrites
    have hset := Setting.set_of_writes hformed hwrites
    let waiting : State :=
      { State.ofSettings settings true s.filled with pending := some (x.parameter, none) }
    refine ⟨{ waiting with pending := some (x.parameter, some text) },
      ⟨rfl, State.settled_pending hnew hset true s.filled⟩, fun rest => ?_⟩
    have hname : s.takeLong c x.parameter.name none = .ok waiting := by
      simp only [State.takeLong, hlong, hvalue, hs.recognised]
      rfl
    have hvalue : waiting.takeValue c text =
        .ok { waiting with pending := some (x.parameter, some text) } := rfl
    rw [List.cons_append, List.singleton_append, parseFrom, classify_name hs.literal]
    simp only [hname]
    rw [parseFrom, classify_value rfl rfl dash]
    simp only [hvalue]
  | named flag =>
    have htake := hs.take hnew (Setting.set_of_flag flag) c
    refine ⟨_, State.holds_ofSettings _ true s.filled, fun rest => ?_⟩
    rw [List.singleton_append, parseFrom, classify_name hs.literal]
    simp only [State.takeLong, hlong, flag, htake]
  | letter hletter =>
    have hflag := Setting.valueName?_of_letter hletter
    have htake := hs.take hnew (Setting.set_of_flag hflag) c
    obtain ⟨hdash, hshort⟩ := Setting.short?_letter hc hletter
    refine ⟨_, State.holds_ofSettings _ true s.filled, fun rest => ?_⟩
    rw [List.singleton_append, parseFrom,
      classify_letter (positionals_eq_nil c hc) hs.literal hdash]
    simp only [State.takeLetters, hshort, htake]

/-- Options that are spelled one after the other are all of them settings. -/
theorem SpellsAll.parseFrom_eq {later : List Setting} {args : List String}
    (h : SpellsAll later args) {s : State} {settings : List Setting} (hs : s.Holds settings)
    (hformed : ∀ x ∈ later, x.WellFormed)
    (hdistinct : ((settings ++ later).map Setting.parameter).Nodup) :
    ∃ next : State, next.Holds (settings ++ later) ∧ parseFrom c s args = action c next := by
  induction h generalizing s settings with
  | nil => exact ⟨s, by rwa [List.append_nil], rfl⟩
  | @cons x later first rest hx _ ih =>
    have hnew : x.parameter ∉ settings.map Setting.parameter := by
      rw [List.map_append, List.map_cons] at hdistinct
      exact fun hmem => List.disjoint_of_nodup_append hdistinct hmem List.mem_cons_self
    obtain ⟨hx_formed, hlater_formed⟩ := List.forall_mem_cons.mp hformed
    obtain ⟨next, hnext, hfirst⟩ := hx.parseFrom_append hc hx_formed hs hnew
    rw [List.append_cons] at hdistinct ⊢
    obtain ⟨last, hlast, hrest⟩ := ih hnext hlater_formed hdistinct
    exact ⟨last, hlast, (hfirst rest).trans hrest⟩

end Options

/-- A state that holds settings asks for a run with what they give. -/
theorem action_of_holds {s : State} {settings : List Setting} (h : s.Holds settings) :
    action .top s = .ok (.run false (settings.foldl Setting.give {})) ∧
      action .run s = .ok (.run true (settings.foldl Setting.give {})) := by
  simp only [action, h.settled]
  exact ⟨rfl, rfl⟩

/-- The name of the command for a run makes it the command. -/
theorem parse_named_run (args : List String) :
    parse (Command.run.name :: args) = parseFrom .run {} args := by
  have hcommand : classify .top {} Command.run.name = .command .run := by decide
  rw [parse, parseFrom, hcommand]

/-- Any choice of options with values, one for each parameter, is read alike in any order and any
spelling, with and without the name of the command for a run. The run gets the options that are
chosen, and the defaults for the rest. -/
theorem spelled_options_reach_run {settings order : List Setting} {args : List String}
    (hformed : ∀ x ∈ settings, x.WellFormed)
    (hdistinct : (settings.map Setting.parameter).Nodup) (horder : settings.Perm order)
    (hspelled : SpellsAll order args) :
    ∃ v : Values,
      parse args = .ok (.run false v) ∧
      parse (Command.run.name :: args) = .ok (.run true v) ∧
      (∀ terminal, v.runOptions terminal = Setting.options settings terminal ∧
        ∀ x ∈ settings, x.apply (v.runOptions terminal) = v.runOptions terminal) ∧
      ∀ host : Host,
        execute host args = runSuite host (Setting.options settings host.terminal) ∧
        execute host (Command.run.name :: args) =
          runSuite host (Setting.options settings host.terminal) := by
  have hordered : (([] ++ order).map Setting.parameter).Nodup :=
    (horder.map Setting.parameter).nodup_iff.mp hdistinct
  have hread {c : Command} (hc : c ∈ [Command.top, .run]) :
      ∃ s : State, s.Holds order ∧ parseFrom c {} args = action c s :=
    hspelled.parseFrom_eq hc State.holds_start (fun x hx => hformed x (horder.mem_iff.mpr hx))
      hordered
  obtain ⟨top, htop, hparse⟩ := hread (c := .top) (by decide)
  obtain ⟨run, hrun, hnamed⟩ := hread (c := .run) (by decide)
  have hplain : parse args = .ok (.run false (order.foldl Setting.give {})) :=
    hparse.trans (action_of_holds htop).1
  have hrun : parse (Command.run.name :: args) = .ok (.run true (order.foldl Setting.give {})) := by
    rw [parse_named_run, hnamed, (action_of_holds hrun).2]
  have hoptions (terminal : Bool) : (order.foldl Setting.give {}).runOptions terminal =
      Setting.options settings terminal := by
    rw [Setting.runOptions_settings, Setting.options_perm hdistinct horder]
  refine ⟨_, hplain, hrun, fun terminal => ⟨hoptions terminal, fun x hx => ?_⟩, fun host => ?_⟩
  · rw [hoptions, Setting.apply_options hdistinct hx]
  · simp only [execute, hplain, hrun, perform, hoptions, and_self]

/-- Paths that name a command, begin with a dash or hold an equals sign, and the longest timeout. -/
theorem spelled_options_reach_run_awkward :
    let args := ["--checker", "run", "-v", "--config=-a=b", "--timeout", "+018446744073709551615",
      "--no-color", "--format=json"]
    ∃ v : Values, parse args = .ok (.run false v) ∧ parse ("run" :: args) = .ok (.run true v) ∧
      v.runOptions true =
        { config := "-a=b"
          checker := "run"
          wait := .limit (.ofSeconds 18446744073709551615)
          format := .json
          verbose := true } := by
  intro args
  let settings : List Setting :=
    [.config "-a=b", .checker "run", .timeout 18446744073709551615, .format .json, .verbose,
      .noColor]
  let order : List Setting :=
    [.checker "run", .verbose, .config "-a=b", .timeout 18446744073709551615, .noColor,
      .format .json]
  have hformed : ∀ x ∈ settings, x.WellFormed := by
    simp [settings, Setting.WellFormed]
  have hdigits : Numeral.AreDigits "018446744073709551615".toList :=
    ⟨by decide, List.all_eq_true.mp (by decide)⟩
  have htimeout : Setting.Writes (.timeout 18446744073709551615) "+018446744073709551615" :=
    .plus hdigits
  have hspelled : SpellsAll order _ :=
    .cons (.separate rfl (by decide)) <| .cons (.letter rfl) <| .cons (.joined rfl) <|
      .cons (.separate htimeout (by decide)) <| .cons (.named rfl) <| .cons (.joined rfl) .nil
  obtain ⟨v, hparse, hnamed, hoptions, -⟩ :=
    spelled_options_reach_run hformed (by decide) (by decide) hspelled
  exact ⟨v, hparse, hnamed, (hoptions true).1⟩

end CheckerAudit.CommandLine
