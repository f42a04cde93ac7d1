import CheckerAudit.Proofs.Numeral.Denotes
import Mathlib.Data.List.Basic
import Mathlib.Data.List.Induction

/-!
# The leftmost offending character decides the fault

A text that denotes no integer of a range is refused at the first character that cannot go on: it
is no digit, or appending it leaves the range on the side of the sign. What stands behind it is
not looked at, so an overflow comes before a bad character further on.
-/
namespace CheckerAudit.Numeral

/-- A character that cannot go on after some digits. -/
inductive Offends (range : Range) (digits : List Char) (c : Char) : Bool → Fault → Prop where
  | noDigit (negative : Bool) (h : c.isDigit = false) :
    Offends range digits c negative .invalidDigit
  | tooLarge (digit : c.isDigit = true)
    (h : range.greatest < (Nat.ofDigitChars 10 (digits ++ [c]) 0 : Int)) :
    Offends range digits c false .tooLarge
  | tooSmall (digit : c.isDigit = true)
    (h : -(Nat.ofDigitChars 10 (digits ++ [c]) 0 : Int) < range.least) :
    Offends range digits c true .tooSmall

/-- Characters of which none offends. -/
def Admitted (range : Range) (negative : Bool) (digits : List Char) : Prop :=
  ∀ before c after, digits = before ++ c :: after → ∀ fault, ¬ Offends range before c negative fault

/-- A text with nothing to read, with a sign only, or with an offending character, of which the
leftmost decides. -/
inductive Faulty (range : Range) : List Char → Fault → Prop where
  | empty : Faulty range [] .empty
  | signOnly {text : List Char} {negative : Bool} (sign : SplitsSign text negative []) :
    Faulty range text .invalidDigit
  | offence {text digits rest : List Char} {negative : Bool} {c : Char} {fault : Fault}
    (sign : SplitsSign text negative (digits ++ c :: rest))
    (leftmost : Admitted range negative digits) (offends : Offends range digits c negative fault) :
    Faulty range text fault

section
variable {range : Range} {negative : Bool} {digits : List Char} {c : Char} {fault : Fault}

/-! ### One character -/

theorem withDigit_ofDigitChars (negative : Bool) (digits : List Char) (c : Char) :
    withDigit negative (signed negative (Nat.ofDigitChars 10 digits 0)) (c.toNat - '0'.toNat) =
      signed negative (Nat.ofDigitChars 10 (digits ++ [c]) 0) := by
  rw [withDigit_signed, Nat.ofDigitChars_append, Nat.ofDigitChars_cons, Nat.ofDigitChars_nil]

theorem appendDigits_offends (hleast : range.least ≤ 0)
    (h : Offends range digits c negative fault) (rest : List Char) :
    appendDigits range negative (signed negative (Nat.ofDigitChars 10 digits 0)) (c :: rest) =
      .error fault := by
  cases h with
  | noDigit _ hc =>
    have hnone : digit? c = none := if_neg (by rw [hc]; exact Bool.false_ne_true)
    rw [appendDigits, hnone]
  | tooLarge hc habove =>
    have hdigit : digit? c = some (c.toNat - '0'.toNat) := if_pos hc
    simp only [appendDigits, hdigit, withDigit_ofDigitChars]
    rw [if_neg, if_pos]
    · exact habove
    · show ¬ (Nat.ofDigitChars 10 (digits ++ [c]) 0 : Int) < range.least
      omega
  | tooSmall hc hbelow =>
    have hdigit : digit? c = some (c.toNat - '0'.toNat) := if_pos hc
    simp only [appendDigits, hdigit, withDigit_ofDigitChars]
    rw [if_pos]
    exact hbelow

theorem signed_of_not_offends (hleast : range.least ≤ 0) (hgreatest : 0 ≤ range.greatest)
    (h : ∀ fault, ¬ Offends range digits c negative fault) :
    c.isDigit = true ∧
      range.Spans (signed negative (Nat.ofDigitChars 10 (digits ++ [c]) 0)) := by
  have hc : c.isDigit = true := by
    by_contra hc
    exact h _ (.noDigit negative (Bool.not_eq_true _ ▸ hc))
  refine ⟨hc, hleast, hgreatest, ?_, ?_⟩
  · cases negative with
    | false =>
      show range.least ≤ (Nat.ofDigitChars 10 (digits ++ [c]) 0 : Int)
      omega
    | true => exact Int.not_lt.mp fun hbelow => h _ (.tooSmall hc hbelow)
  · cases negative with
    | false => exact Int.not_lt.mp fun habove => h _ (.tooLarge hc habove)
    | true =>
      show -(Nat.ofDigitChars 10 (digits ++ [c]) 0 : Int) ≤ range.greatest
      omega

theorem appendDigits_not_offends (hleast : range.least ≤ 0) (hgreatest : 0 ≤ range.greatest)
    (h : ∀ fault, ¬ Offends range digits c negative fault) (rest : List Char) :
    appendDigits range negative (signed negative (Nat.ofDigitChars 10 digits 0)) (c :: rest) =
      appendDigits range negative (signed negative (Nat.ofDigitChars 10 (digits ++ [c]) 0))
        rest := by
  obtain ⟨hc, hspans⟩ := signed_of_not_offends hleast hgreatest h
  have hdigit : digit? c = some (c.toNat - '0'.toNat) := if_pos hc
  simp only [appendDigits, hdigit, withDigit_ofDigitChars]
  rw [if_neg (Int.not_lt.mpr hspans.least_le), if_neg (Int.not_lt.mpr hspans.le_greatest)]

/-! ### All characters -/

theorem admitted_nil (range : Range) (negative : Bool) : Admitted range negative [] := by
  intro before c after hsplit
  exact absurd hsplit.symm (List.append_ne_nil_of_right_ne_nil before (List.cons_ne_nil c after))

theorem admitted_concat_iff : Admitted range negative (digits ++ [c]) ↔
    Admitted range negative digits ∧ ∀ fault, ¬ Offends range digits c negative fault := by
  constructor
  · intro h
    constructor
    · intro before d after hsplit
      exact h before d (after ++ [c]) (by rw [hsplit, List.append_assoc, List.cons_append])
    · exact h digits c [] rfl
  · rintro ⟨hdigits, hc⟩ before d after hsplit
    -- The split falls at the last character or within those before it.
    rcases List.eq_nil_or_concat' after with rfl | ⟨after, last, rfl⟩
    · obtain ⟨rfl, hlast⟩ := List.append_inj' hsplit rfl
      obtain rfl : c = d := List.singleton_inj.mp hlast
      exact hc
    · rw [← List.cons_append, ← List.append_assoc] at hsplit
      exact hdigits before d after (List.append_inj' hsplit rfl).1

/-- Characters that are admitted bring the accumulator to their value, whatever follows. -/
theorem appendDigits_admitted (hleast : range.least ≤ 0) (hgreatest : 0 ≤ range.greatest)
    (h : Admitted range negative digits) (rest : List Char) :
    appendDigits range negative 0 (digits ++ rest) =
      appendDigits range negative (signed negative (Nat.ofDigitChars 10 digits 0)) rest := by
  induction digits using List.reverseRecOn generalizing rest with
  | nil => rw [List.nil_append, Nat.ofDigitChars_nil, signed_zero]
  | append_singleton digits c ih =>
    obtain ⟨hdigits, hc⟩ := admitted_concat_iff.mp h
    rw [List.append_assoc, List.singleton_append, ih hdigits,
      appendDigits_not_offends hleast hgreatest hc]

/-- A refusal further on comes from an offending character, and none stands before it. -/
theorem exists_offends (hleast : range.least ≤ 0) (hgreatest : 0 ≤ range.greatest)
    {cs : List Char} (hdigits : Admitted range negative digits)
    (h : appendDigits range negative (signed negative (Nat.ofDigitChars 10 digits 0)) cs =
      .error fault) :
    ∃ before c rest, digits ++ cs = before ++ c :: rest ∧ Admitted range negative before ∧
      Offends range before c negative fault := by
  induction cs generalizing digits with
  | nil => cases h
  | cons c cs ih =>
    by_cases hc : ∃ fault, Offends range digits c negative fault
    · obtain ⟨fault', hc⟩ := hc
      rw [appendDigits_offends hleast hc] at h
      obtain rfl := Except.error.inj h
      exact ⟨digits, c, cs, rfl, hdigits, hc⟩
    · rw [not_exists] at hc
      rw [appendDigits_not_offends hleast hgreatest hc] at h
      obtain ⟨before, d, rest, hsplit, hfound⟩ := ih (admitted_concat_iff.mpr ⟨hdigits, hc⟩) h
      rw [List.append_assoc, List.singleton_append] at hsplit
      exact ⟨before, d, rest, hsplit, hfound⟩

theorem readDigits_eq_error_iff (hleast : range.least ≤ 0) (hgreatest : 0 ≤ range.greatest)
    {cs : List Char} :
    readDigits range negative cs = .error fault ↔
      cs = [] ∧ fault = .invalidDigit ∨
        ∃ digits c rest, cs = digits ++ c :: rest ∧ Admitted range negative digits ∧
          Offends range digits c negative fault := by
  have hstart : signed negative (Nat.ofDigitChars 10 [] 0) = 0 := signed_zero negative
  cases cs with
  | nil =>
    constructor
    · intro h
      exact .inl ⟨rfl, (Except.error.inj h).symm⟩
    · rintro (⟨-, rfl⟩ | ⟨digits, c, rest, hsplit, -⟩)
      · rfl
      · cases digits <;> cases hsplit
  | cons c cs =>
    rw [readDigits]
    constructor
    · intro h
      rw [← hstart] at h
      obtain ⟨digits, d, rest, hsplit, hfound⟩ :=
        exists_offends hleast hgreatest (admitted_nil range negative) h
      exact .inr ⟨digits, d, rest, hsplit, hfound⟩
    · rintro (⟨hnil, -⟩ | ⟨digits, d, rest, hsplit, hdigits, hd⟩)
      · cases hnil
      · rw [hsplit, appendDigits_admitted hleast hgreatest hdigits,
          appendDigits_offends hleast hd]

/-! ### The whole text -/

theorem faulty_splitsSign_iff {text cs : List Char} (h : SplitsSign text negative cs) :
    Faulty range text fault ↔
      cs = [] ∧ fault = .invalidDigit ∨
        ∃ digits c rest, cs = digits ++ c :: rest ∧ Admitted range negative digits ∧
          Offends range digits c negative fault := by
  constructor
  · intro hfaulty
    cases hfaulty with
    | empty => cases h
    | signOnly hsign =>
      obtain ⟨-, rfl⟩ := h.unique hsign
      exact .inl ⟨rfl, rfl⟩
    | offence hsign hleftmost hoffends =>
      obtain ⟨rfl, rfl⟩ := h.unique hsign
      exact .inr ⟨_, _, _, rfl, hleftmost, hoffends⟩
  · rintro (⟨rfl, rfl⟩ | ⟨digits, c, rest, rfl, hleftmost, hoffends⟩)
    · exact .signOnly h
    · exact .offence h hleftmost hoffends

/-- In a range on both sides of zero, a text is refused with the fault that it has. -/
theorem read_eq_error_iff (hleast : range.least < 0) (hgreatest : 0 ≤ range.greatest)
    {text : List Char} : read range text = .error fault ↔ Faulty range text fault := by
  by_cases hempty : text = []
  · subst hempty
    constructor
    · intro h
      obtain rfl := Except.error.inj h
      exact .empty
    · intro h
      cases h with
      | empty => rfl
      | signOnly hsign | offence hsign => cases hsign
  · obtain ⟨negative, cs, hsign⟩ := exists_splitsSign hempty
    rw [read_splitsSign hleast hsign, faulty_splitsSign_iff hsign,
      readDigits_eq_error_iff (Int.le_of_lt hleast) hgreatest]

theorem faulty_empty_iff {text : List Char} : Faulty range text .empty ↔ text = [] := by
  constructor
  · intro h
    cases h with
    | empty => rfl
    | offence _ _ hoffends => cases hoffends
  · rintro rfl
    exact .empty

/-! ### The accumulator of a literal that is read -/

/-- At every digit the range holds the product by ten, and then the sum or the difference. -/
def Accumulates (range : Range) (negative : Bool) (digits : List Char) : Prop :=
  ∀ before c after, digits = before ++ c :: after →
    ∃ v d, appendDigits range negative 0 before = .ok v ∧ digit? c = some d ∧
      range.Spans (v * 10) ∧ range.Spans (withDigit negative v d)

theorem signed_mul_ten (negative : Bool) (v : Nat) :
    signed negative v * 10 = signed negative (10 * v) := by
  cases negative
  · show (v : Int) * 10 = (10 * v : Nat)
    omega
  · show -(v : Int) * 10 = -((10 * v : Nat) : Int)
    omega

/-- The accumulator only moves away from zero, and it ends inside. -/
theorem accumulates_of_spans (hdigits : ∀ c ∈ digits, c.isDigit = true)
    (hspans : range.Spans (signed negative (Nat.ofDigitChars 10 digits 0))) :
    Accumulates range negative digits := by
  rintro before c after rfl
  have hbefore : ∀ d ∈ before, d.isDigit = true :=
    fun d hd => hdigits d (List.mem_append_left _ hd)
  have hdigit : digit? c = some (c.toNat - '0'.toNat) :=
    if_pos (hdigits c (List.mem_append_right _ List.mem_cons_self))
  let v := Nat.ofDigitChars 10 before 0
  let next := 10 * v + (c.toNat - '0'.toNat)
  have htotal : next ≤ Nat.ofDigitChars 10 (before ++ c :: after) 0 := by
    rw [Nat.ofDigitChars_append, Nat.ofDigitChars_cons]
    exact le_ofDigitChars after next
  have hread : appendDigits range negative 0 before = .ok (signed negative v) := by
    rw [← signed_zero negative]
    apply appendDigits_eq_ok hbefore
    apply hspans.mono
    omega
  refine ⟨signed negative v, c.toNat - '0'.toNat, hread, hdigit, ?_, ?_⟩
  · rw [signed_mul_ten]
    apply hspans.mono
    omega
  · rw [withDigit_signed]
    exact hspans.mono htotal

end

/-- A text is refused as a 64-bit integer with the fault that it has. -/
theorem readInt64_eq_error_iff {text : String} {fault : Fault} :
    readInt64 text = .error fault ↔ Faulty signed64 text.toList fault := by
  rw [← read_eq_error_iff (by decide) (by decide), readInt64]
  cases read signed64 text.toList with
  | error other => rw [Except.map, Except.error.injEq, Except.error.injEq]
  | ok v =>
    constructor
    · intro h
      cases h
    · intro h
      cases h

theorem exists_faulty_iff {text : List Char} :
    (∃ fault, Faulty signed64 text fault) ↔ ∀ n : Int64, ¬ Denotes text n.toInt := by
  have hok {n : Int64} : readInt64 (.ofList text) = .ok n ↔ Denotes text n.toInt := by
    rw [readInt64_eq_ok_iff, String.toList_ofList]
  have herror {fault : Fault} :
      readInt64 (.ofList text) = .error fault ↔ Faulty signed64 text fault := by
    rw [readInt64_eq_error_iff, String.toList_ofList]
  cases hread : readInt64 (.ofList text) with
  | ok n =>
    constructor
    · rintro ⟨fault, hfaulty⟩
      rw [herror.mpr hfaulty] at hread
      cases hread
    · intro h
      exact absurd (hok.mp hread) (h n)
  | error fault =>
    constructor
    · intro _ n hdenotes
      rw [hok.mpr hdenotes] at hread
      cases hread
    · intro _
      exact ⟨fault, herror.mp hread⟩

/-- Digits that denote a 64-bit integer are accumulated within the range. -/
theorem Denotes.accumulates {text digits : List Char} {negative : Bool} {n : Int64}
    (h : Denotes text n.toInt) (hsign : SplitsSign text negative digits) :
    Accumulates signed64 negative digits := by
  obtain ⟨hdigits, hvalue⟩ := hsign.denotes_iff.mp h
  apply accumulates_of_spans hdigits.2
  rw [← hvalue]
  exact signed64_spans n

end CheckerAudit.Numeral
