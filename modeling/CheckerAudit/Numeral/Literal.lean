/-!
Integer literals: an optional sign and ASCII digits, read from the left. The leftmost character
that cannot go on decides the fault; one that is no digit comes before the bounds. `Denotes` says
what a literal stands for, without regard to a range or an order of reading.
-/
namespace CheckerAudit.Numeral

/-- Why a text is no integer of a range. -/
inductive Fault where
  | empty
  | invalidDigit
  | tooLarge
  | tooSmall
deriving Repr, DecidableEq

/-- What is said about a fault. -/
def Fault.message : Fault → String
  | .empty => "cannot parse integer from empty string"
  | .invalidDigit => "invalid digit found in string"
  | .tooLarge => "number too large to fit in target type"
  | .tooSmall => "number too small to fit in target type"

/-- A range of integers, both ends included. -/
structure Range where
  least : Int
  greatest : Int
deriving Repr, DecidableEq

/-- The range of 64-bit signed integers. -/
def signed64 : Range := ⟨-9223372036854775808, 9223372036854775807⟩

/-- The range of 32-bit unsigned integers. -/
def unsigned32 : Range := ⟨0, 4294967295⟩

/-- The range of 64-bit unsigned integers. -/
def unsigned64 : Range := ⟨0, 18446744073709551615⟩

/-- The value of an ASCII digit. -/
def digit? (c : Char) : Option Nat :=
  if c.isDigit then some (c.toNat - '0'.toNat) else none

/-- A value with one more digit, away from zero on the side of its sign. -/
def withDigit (negative : Bool) (value : Int) (d : Nat) : Int :=
  if negative then value * 10 - d else value * 10 + d

/-- Appends digits to a value that stays in the range. -/
def appendDigits (range : Range) (negative : Bool) (value : Int) : List Char → Except Fault Int
  | [] => .ok value
  | c :: rest =>
    match digit? c with
    | none => .error .invalidDigit
    | some d =>
      if withDigit negative value d < range.least then .error .tooSmall
      else if range.greatest < withDigit negative value d then .error .tooLarge
      else appendDigits range negative (withDigit negative value d) rest

/-- Reads digits, of which there is at least one. -/
def readDigits (range : Range) (negative : Bool) : List Char → Except Fault Int
  | [] => .error .invalidDigit
  | c :: rest => appendDigits range negative 0 (c :: rest)

/-- Reads a literal of a range. A range without negative values has no minus sign. -/
def read (range : Range) : List Char → Except Fault Int
  | [] => .error .empty
  | c :: rest =>
    if c = '+' then readDigits range false rest
    else if c = '-' ∧ range.least < 0 then readDigits range true rest
    else readDigits range false (c :: rest)

/-- Reads a 64-bit signed integer. -/
def readInt64 (text : String) : Except Fault Int64 :=
  (read signed64 text.toList).map Int64.ofInt

/-- One or more ASCII digits. -/
def AreDigits (cs : List Char) : Prop :=
  cs ≠ [] ∧ ∀ c ∈ cs, c.isDigit = true

/-- Digits denote their decimal value, with a sign before them that value or its opposite. -/
inductive Denotes : List Char → Int → Prop where
  | bare {digits : List Char} (h : AreDigits digits) :
    Denotes digits (Nat.ofDigitChars 10 digits 0)
  | plus {digits : List Char} (h : AreDigits digits) :
    Denotes ('+' :: digits) (Nat.ofDigitChars 10 digits 0)
  | minus {digits : List Char} (h : AreDigits digits) :
    Denotes ('-' :: digits) (-(Nat.ofDigitChars 10 digits 0 : Int))

/-- An accepted value lies in the range. -/
theorem appendDigits_mem {range : Range} {negative : Bool} {value n : Int} {cs : List Char}
    (h : appendDigits range negative value cs = .ok n)
    (low : range.least ≤ value) (high : value ≤ range.greatest) :
    range.least ≤ n ∧ n ≤ range.greatest := by
  induction cs generalizing value with
  | nil =>
    simp only [appendDigits, Except.ok.injEq] at h
    omega
  | cons c cs ih =>
    unfold appendDigits at h
    cases hd : digit? c with
    | none => simp [hd] at h
    | some d =>
      simp only [hd] at h
      split at h
      · cases h
      · split at h
        · cases h
        · exact ih h (by omega) (by omega)

end CheckerAudit.Numeral
