/-!
White space: the code points with the Unicode property `White_Space`, and trimming by it.
Core's `Char.isWhitespace` knows four of them only.
-/
namespace CheckerAudit.Text

/-- The ranges of code points with the property `White_Space`, in order, both ends included. -/
def blankRanges : List (Nat × Nat) :=
  [(9, 13), (32, 32), (133, 133), (160, 160), (5760, 5760), (8192, 8202), (8232, 8233),
    (8239, 8239), (8287, 8287), (12288, 12288)]

/-- A character is blank when one of the ranges holds its code point. -/
def isBlank (c : Char) : Bool :=
  blankRanges.any fun (low, high) => low ≤ c.toNat && c.toNat ≤ high

/-- Drops the blank characters at both ends. -/
def trimChars (s : List Char) : List Char :=
  ((s.dropWhile isBlank).reverse.dropWhile isBlank).reverse

/-- No blank character at either end. -/
structure Tight (s : List Char) : Prop where
  head : ∀ c ∈ s.head?, isBlank c = false
  last : ∀ c ∈ s.getLast?, isBlank c = false

instance (s : List Char) : Decidable (Tight s) :=
  decidable_of_iff (s.head?.all (!isBlank ·) && s.getLast?.all (!isBlank ·))
    ⟨fun h => by
      rw [Bool.and_eq_true, Option.all_eq_true, Option.all_eq_true] at h
      exact ⟨fun c hc => by simpa using h.1 c hc, fun c hc => by simpa using h.2 c hc⟩,
    fun h => by
      rw [Bool.and_eq_true, Option.all_eq_true, Option.all_eq_true]
      exact ⟨fun c hc => by simpa using h.head c hc, fun c hc => by simpa using h.last c hc⟩⟩

/-- A string without the blank characters at its ends. -/
def trim (s : String) : String :=
  .ofList (trimChars s.toList)

@[simp] theorem toList_trim (s : String) : (trim s).toList = trimChars s.toList := by
  simp [trim]

@[simp] theorem isBlank_carriageReturn : isBlank '\r' = true := by decide

end CheckerAudit.Text
