import Mathlib.Data.List.Nodup
import CheckerAudit.CommandLine.Spelling
import CheckerAudit.Proofs.Numeral.Denotes

/-!
# Settings of a run

A written value is read as the value that it gives. Settings of different parameters can be made in
any order, and each of them is found in the options that result.
-/
namespace CheckerAudit.CommandLine

/-! ### One value -/

namespace Values

theorem path_eq_ok {p : Parameter} {text : String} (h : text ≠ "") : path p text = .ok text := by
  rw [path, if_neg]
  rwa [String.isEmpty_iff]

theorem outputFormat_formatName (p : Parameter) (f : OutputFormat) :
    outputFormat p (formatName f) = .ok f := by
  cases f <;> rfl

theorem timeout_eq_ok {p : Parameter} {text : String} {seconds : Nat}
    (h : Numeral.Denotes text.toList seconds)
    (hrange : 1 ≤ seconds ∧ seconds ≤ 18446744073709551615) :
    integer p text Numeral.unsigned64 1 18446744073709551615 "1..18446744073709551615" =
      .ok seconds := by
  have hread : Numeral.read Numeral.unsigned64 text.toList = .ok (seconds : Int) :=
    Numeral.read_of_denotes h (by decide) (by omega) (by simp only [Numeral.unsigned64]; omega)
  rw [integer, hread]
  exact if_pos (by omega)

end Values

namespace Setting

/-! ### One setting -/

/-- The values with this one given. -/
def give (v : Values) : Setting → Values
  | config path => { v with config := some path }
  | catalog path => { v with catalog := some path }
  | checker path => { v with checker := some path }
  | timeout seconds => { v with timeout := some seconds }
  | format f => { v with format := some f }
  | verbose => { v with verbose := true }
  | noColor => { v with noColor := true }

/-- A text that gives the value of a setting sets it. -/
theorem set_of_writes {s : Setting} {text : String} (hformed : s.WellFormed) (h : s.Writes text)
    (v : Values) : v.set s.parameter text = .ok (s.give v) := by
  cases s with
  | config path | catalog path | checker path =>
    obtain rfl : text = path := h
    simp only [parameter, Values.set, Values.path_eq_ok hformed]
    rfl
  | timeout seconds =>
    simp only [parameter, Values.set, Values.timeout_eq_ok h hformed]
    rfl
  | format f =>
    obtain rfl : text = formatName f := h
    simp only [parameter, Values.set, Values.outputFormat_formatName]
    rfl
  | verbose | noColor => exact h.elim

/-- A flag is set without a text. -/
theorem set_of_flag {s : Setting} (flag : s.parameter.valueName? = none) (v : Values) :
    v.set s.parameter "" = .ok (s.give v) := by
  cases s with
  | verbose | noColor => rfl
  | _ => cases flag

theorem valueName?_of_writes {s : Setting} {text : String} (h : s.Writes text) :
    ∃ name, s.parameter.valueName? = some name := by
  cases s with
  | verbose | noColor => exact h.elim
  | _ => exact ⟨_, rfl⟩

/-- Only flags have a letter. -/
theorem valueName?_of_letter {s : Setting} {letter : Char}
    (h : s.parameter.letter? = some letter) : s.parameter.valueName? = none := by
  cases s with
  | verbose => rfl
  | _ => cases h

/-! ### All settings -/

theorem runOptions_give (v : Values) (s : Setting) (terminal : Bool) :
    (s.give v).runOptions terminal = s.apply (v.runOptions terminal) := by
  cases s <;> rfl

theorem runOptions_foldl (settings : List Setting) (v : Values) (terminal : Bool) :
    (settings.foldl give v).runOptions terminal =
      settings.foldl apply (v.runOptions terminal) := by
  induction settings generalizing v with
  | nil => rfl
  | cons s settings ih => rw [List.foldl_cons, List.foldl_cons, ih, runOptions_give]

/-- What some settings give amounts to the options with these settings. -/
theorem runOptions_settings (settings : List Setting) (terminal : Bool) :
    (settings.foldl give {}).runOptions terminal = options settings terminal :=
  runOptions_foldl settings {} terminal

theorem apply_comm {s t : Setting} (h : s.parameter ≠ t.parameter) (o : RunOptions) :
    t.apply (s.apply o) = s.apply (t.apply o) := by
  cases s <;> cases t <;> first | rfl | exact absurd rfl h

theorem apply_apply (s : Setting) (o : RunOptions) : s.apply (s.apply o) = s.apply o := by
  cases s <;> rfl

section
variable {settings : List Setting} (hdistinct : (settings.map parameter).Nodup)
include hdistinct

/-- Settings of different parameters can be made in any order. -/
theorem options_perm {order : List Setting} (hperm : settings.Perm order) (terminal : Bool) :
    options settings terminal = options order terminal := by
  apply hperm.foldl_eq'
  intro s hs t ht o
  by_cases hparameter : s.parameter = t.parameter
  · rw [List.inj_on_of_nodup_map hdistinct hs ht hparameter]
  · exact apply_comm hparameter o

/-- Each setting is found in the options. -/
theorem apply_options {s : Setting} (hs : s ∈ settings) (terminal : Bool) :
    s.apply (options settings terminal) = options settings terminal := by
  have hlast : settings.Perm (settings.erase s ++ [s]) :=
    (List.perm_cons_erase hs).trans (List.perm_append_singleton s _).symm
  have hoptions : options settings terminal = s.apply (options (settings.erase s) terminal) := by
    rw [options_perm hdistinct hlast, options, List.foldl_append]
    rfl
  rw [hoptions, apply_apply]

end

end Setting

end CheckerAudit.CommandLine
