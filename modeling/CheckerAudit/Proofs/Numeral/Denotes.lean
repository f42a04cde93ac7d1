import CheckerAudit.Numeral.Literal
import CheckerAudit.Proofs.Numeral.Decimal

/-!
# A literal is read as what it denotes

Reading from the left, with a check of the bounds after each digit, accepts the literals of the
range and gives their values: no digit that is yet to come can bring a value back into the range.
-/
namespace CheckerAudit.Numeral

/-- The sign of a nonempty text, negative or not, and what is left to be digits. -/
inductive SplitsSign : List Char → Bool → List Char → Prop where
  | plus (rest : List Char) : SplitsSign ('+' :: rest) false rest
  | minus (rest : List Char) : SplitsSign ('-' :: rest) true rest
  | bare {c : Char} {rest : List Char} (unsigned : c ≠ '+' ∧ c ≠ '-') :
    SplitsSign (c :: rest) false (c :: rest)

/-- What is read is made of digits, and its value is theirs. -/
theorem digits_of_appendDigits {range : Range} {negative : Bool} {cs : List Char} {v : Nat}
    {n : Int}
    (h : appendDigits range negative (signed negative v) cs = .ok n) :
    (∀ c ∈ cs, c.isDigit = true) ∧ n = signed negative (Nat.ofDigitChars 10 cs v) := by
  induction cs generalizing v with
  | nil =>
    obtain rfl := Except.ok.inj h
    exact ⟨nofun, by rw [Nat.ofDigitChars_nil]⟩
  | cons c cs ih =>
    by_cases hc : c.isDigit = true
    · have hdigit : digit? c = some (c.toNat - '0'.toNat) := if_pos hc
      simp only [appendDigits, hdigit, withDigit_signed] at h
      split at h
      · cases h
      · split at h
        · cases h
        · obtain ⟨hdigits, hvalue⟩ := ih h
          refine ⟨List.forall_mem_cons.mpr ⟨hc, hdigits⟩, ?_⟩
          rw [hvalue, Nat.ofDigitChars_cons]
    · have hdigit : digit? c = none := if_neg hc
      simp only [appendDigits, hdigit] at h
      cases h

@[simp] theorem signed_zero (negative : Bool) : signed negative 0 = 0 := by
  cases negative <;> rfl

section
variable {range : Range} {negative : Bool} {c : Char} {cs : List Char} {n : Int}

theorem readDigits_eq_ok_iff (hleast : range.least ≤ 0) (hgreatest : 0 ≤ range.greatest) :
    readDigits range negative cs = .ok n ↔
      AreDigits cs ∧ n = signed negative (Nat.ofDigitChars 10 cs 0) ∧
        range.least ≤ n ∧ n ≤ range.greatest := by
  cases cs with
  | nil =>
    constructor
    · intro h
      cases h
    · rintro ⟨⟨hnonempty, -⟩, -⟩
      exact absurd rfl hnonempty
  | cons c cs =>
    rw [readDigits]
    constructor
    · intro h
      have hbounds := appendDigits_mem h hleast hgreatest
      rw [← signed_zero negative] at h
      obtain ⟨hdigits, hvalue⟩ := digits_of_appendDigits h
      exact ⟨⟨List.cons_ne_nil c cs, hdigits⟩, hvalue, hbounds⟩
    · rintro ⟨⟨-, hdigits⟩, rfl, hlow, hhigh⟩
      have hread := appendDigits_eq_ok hdigits ⟨hleast, hgreatest, hlow, hhigh⟩
      rwa [signed_zero] at hread

theorem AreDigits.head_ne_sign (h : AreDigits (c :: cs)) : c ≠ '+' ∧ c ≠ '-' := by
  have hc : c.isDigit = true := h.2 c List.mem_cons_self
  constructor
  · rintro rfl
    cases hc
  · rintro rfl
    cases hc

theorem AreDigits.splitsSign (h : AreDigits cs) : SplitsSign cs false cs := by
  cases cs with
  | nil => exact absurd rfl h.1
  | cons c cs => exact .bare h.head_ne_sign

theorem SplitsSign.unique {text ds : List Char} {other : Bool} (h : SplitsSign text negative cs)
    (h' : SplitsSign text other ds) : negative = other ∧ cs = ds := by
  cases h with
  | plus | minus =>
    cases h' with
    | bare hunsigned => simp at hunsigned
    | _ => exact ⟨rfl, rfl⟩
  | bare hunsigned =>
    cases h' with
    | bare => exact ⟨rfl, rfl⟩
    | _ => simp at hunsigned

theorem exists_splitsSign {text : List Char} (h : text ≠ []) :
    ∃ negative cs, SplitsSign text negative cs := by
  cases text with
  | nil => exact absurd rfl h
  | cons c rest =>
    by_cases hplus : c = '+'
    · exact ⟨false, rest, hplus ▸ .plus rest⟩
    · by_cases hminus : c = '-'
      · exact ⟨true, rest, hminus ▸ .minus rest⟩
      · exact ⟨false, c :: rest, .bare ⟨hplus, hminus⟩⟩

theorem read_splitsSign (hleast : range.least < 0) {text : List Char}
    (h : SplitsSign text negative cs) : read range text = readDigits range negative cs := by
  cases h with
  | plus => rw [read, if_pos rfl]
  | minus => rw [read, if_neg (by decide), if_pos ⟨rfl, hleast⟩]
  | bare hunsigned =>
    rw [read, if_neg hunsigned.1, if_neg fun hminus => hunsigned.2 hminus.1]

/-- What stands behind the sign decides what a text denotes. -/
theorem SplitsSign.denotes_iff {text : List Char} (h : SplitsSign text negative cs) :
    Denotes text n ↔ AreDigits cs ∧ n = signed negative (Nat.ofDigitChars 10 cs 0) := by
  constructor
  · intro hdenotes
    cases hdenotes with
    | bare hdigits =>
      obtain ⟨rfl, rfl⟩ := h.unique hdigits.splitsSign
      exact ⟨hdigits, rfl⟩
    | plus hdigits =>
      obtain ⟨rfl, rfl⟩ := h.unique (.plus _)
      exact ⟨hdigits, rfl⟩
    | minus hdigits =>
      obtain ⟨rfl, rfl⟩ := h.unique (.minus _)
      exact ⟨hdigits, rfl⟩
  · rintro ⟨hdigits, rfl⟩
    cases h with
    | plus => exact .plus hdigits
    | minus => exact .minus hdigits
    | bare => exact .bare hdigits

theorem not_denotes_nil : ¬ Denotes [] n := by
  intro h
  cases h with
  | bare hdigits => exact hdigits.1 rfl

/-- In a range on both sides of zero, a text is read exactly when it denotes a value of the
range. -/
theorem read_eq_ok_iff (hleast : range.least < 0) (hgreatest : 0 ≤ range.greatest) :
    read range cs = .ok n ↔ Denotes cs n ∧ range.least ≤ n ∧ n ≤ range.greatest := by
  by_cases hempty : cs = []
  · subst hempty
    constructor
    · intro h
      cases h
    · rintro ⟨hdenotes, -⟩
      exact absurd hdenotes not_denotes_nil
  · obtain ⟨negative, digits, hsign⟩ := exists_splitsSign hempty
    rw [read_splitsSign hleast hsign, hsign.denotes_iff,
      readDigits_eq_ok_iff (Int.le_of_lt hleast) hgreatest, and_assoc]

end

/-- A positive literal is read in any range that reaches from zero to its value. -/
theorem read_of_denotes {range : Range} {text : List Char} {n : Int}
    (h : Denotes text n) (hleast : range.least ≤ 0) (hpositive : 0 < n)
    (hgreatest : n ≤ range.greatest) : read range text = .ok n := by
  have hread {digits : List Char} (hdigits : AreDigits digits)
      (hvalue : n = Nat.ofDigitChars 10 digits 0) : readDigits range false digits = .ok n :=
    (readDigits_eq_ok_iff hleast (by omega)).mpr ⟨hdigits, hvalue, by omega, hgreatest⟩
  cases h with
  | bare hdigits =>
    cases text with
    | nil => exact absurd rfl hdigits.1
    | cons c rest =>
      have hsign := hdigits.head_ne_sign
      rw [read, if_neg hsign.1, if_neg fun hminus => hsign.2 hminus.1]
      exact hread hdigits rfl
  | plus hdigits =>
    rw [read, if_pos rfl]
    exact hread hdigits rfl
  | minus hdigits => omega

/-- A text is read as a 64-bit integer exactly when it denotes it. -/
theorem readInt64_eq_ok_iff {text : String} {n : Int64} :
    readInt64 text = .ok n ↔ Denotes text.toList n.toInt := by
  have hread {v : Int} : read signed64 text.toList = .ok v ↔
      Denotes text.toList v ∧ signed64.least ≤ v ∧ v ≤ signed64.greatest :=
    read_eq_ok_iff (by decide) (by decide)
  constructor
  · intro h
    cases hv : read signed64 text.toList with
    | error fault =>
      rw [readInt64, hv] at h
      cases h
    | ok v =>
      rw [readInt64, hv] at h
      obtain rfl : Int64.ofInt v = n := Except.ok.inj h
      obtain ⟨hdenotes, hlow, hhigh⟩ := hread.mp hv
      rwa [Int64.toInt_ofInt_of_le hlow (Int.lt_add_one_of_le hhigh)]
  · intro h
    have hv := hread.mpr ⟨h, (signed64_spans n).least_le, (signed64_spans n).le_greatest⟩
    rw [readInt64, hv]
    exact congrArg Except.ok (Int64.ofInt_toInt n)

theorem Denotes.int64_unique {text : String} {m n : Int64} (hm : Denotes text.toList m.toInt)
    (hn : Denotes text.toList n.toInt) : m = n := by
  have hread := readInt64_eq_ok_iff.mpr hm
  rw [readInt64_eq_ok_iff.mpr hn] at hread
  exact (Except.ok.inj hread).symm

end CheckerAudit.Numeral
