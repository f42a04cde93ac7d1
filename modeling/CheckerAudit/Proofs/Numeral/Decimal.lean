import CheckerAudit.Numeral.Literal

/-!
# Decimal texts are read back

A number of a range, printed in decimal, is read as itself. The accumulator never leaves the range
on the way, because it only moves away from zero and ends inside. Two numbers with one text are
therefore the same, and neither text holds a colon.
-/
namespace CheckerAudit.Numeral

/-- A magnitude with a sign. -/
def signed (negative : Bool) (magnitude : Nat) : Int :=
  if negative then -magnitude else magnitude

/-- A range that holds a number and zero. -/
structure Range.Spans (range : Range) (n : Int) : Prop where
  least_le_zero : range.least ≤ 0
  zero_le_greatest : 0 ≤ range.greatest
  least_le : range.least ≤ n
  le_greatest : n ≤ range.greatest

/-- A range that holds zero and a number holds every magnitude between them. -/
theorem Range.Spans.mono {range : Range} {negative : Bool} {v w : Nat}
    (h : range.Spans (signed negative w)) (hle : v ≤ w) : range.Spans (signed negative v) := by
  obtain ⟨h0, h1, h2, h3⟩ := h
  refine ⟨h0, h1, ?_, ?_⟩ <;> cases negative <;> simp only [signed] at h2 h3 ⊢ <;>
    simp at h2 h3 ⊢ <;> omega

@[simp] theorem withDigit_signed (negative : Bool) (v d : Nat) :
    withDigit negative (signed negative v) d = signed negative (10 * v + d) := by
  cases negative <;> simp only [withDigit, signed] <;> simp <;> omega

/-- More digits never bring a value closer to zero. -/
theorem le_ofDigitChars (cs : List Char) (v : Nat) : v ≤ Nat.ofDigitChars 10 cs v := by
  induction cs generalizing v with
  | nil => simp
  | cons c cs ih =>
    have h := ih (10 * v + (c.toNat - '0'.toNat))
    rw [Nat.ofDigitChars_cons]
    omega

/-- Digits whose value lies in the range are read to that value. -/
theorem appendDigits_eq_ok {range : Range} {negative : Bool} {cs : List Char} {v : Nat}
    (hdigits : ∀ c ∈ cs, c.isDigit = true)
    (hspan : range.Spans (signed negative (Nat.ofDigitChars 10 cs v))) :
    appendDigits range negative (signed negative v) cs =
      .ok (signed negative (Nat.ofDigitChars 10 cs v)) := by
  induction cs generalizing v with
  | nil => simp [appendDigits]
  | cons c cs ih =>
    have hc : digit? c = some (c.toNat - '0'.toNat) := by
      simp [digit?, hdigits c List.mem_cons_self]
    rw [Nat.ofDigitChars_cons] at hspan ⊢
    have hnext := hspan.mono (le_ofDigitChars cs (10 * v + (c.toNat - '0'.toNat)))
    have hlow := Int.not_lt.mpr hnext.least_le
    have hhigh := Int.not_lt.mpr hnext.le_greatest
    simp only [appendDigits, hc, withDigit_signed, if_neg hlow, if_neg hhigh]
    exact ih (fun d hd => hdigits d (List.mem_cons_of_mem _ hd)) hspan

theorem isDigit_of_mem_natText {n : Nat} {c : Char} (h : c ∈ (toString n).toList) :
    c.isDigit = true := by
  rw [Nat.toString_eq_repr, Nat.toList_repr] at h
  exact Nat.isDigit_of_mem_toDigits (by decide) (by decide) h

theorem natText_ne_nil (n : Nat) : (toString n).toList ≠ [] := by
  rw [Nat.toString_eq_repr, Nat.toList_repr]
  exact Nat.toDigits_ne_nil

theorem exists_natText_cons (n : Nat) :
    ∃ c cs, (toString n).toList = c :: cs ∧ c.isDigit = true := by
  cases htext : (toString n).toList with
  | nil => exact absurd htext (natText_ne_nil n)
  | cons c cs =>
    have hmem : c ∈ (toString n).toList := by rw [htext]; exact List.mem_cons_self
    exact ⟨c, cs, rfl, isDigit_of_mem_natText hmem⟩

/-- Only the text of zero starts with the digit zero. -/
theorem eq_zero_of_head_natText {n : Nat} (h : (toString n).toList.head? = some '0') : n = 0 := by
  rw [Nat.toString_eq_repr, Nat.toList_repr] at h
  induction n using Nat.strongRecOn with
  | ind n ih =>
    rw [Nat.toDigits_eq_if (by decide)] at h
    split at h
    · next hsmall =>
      have hall : ∀ m < 10, Nat.digitChar m = '0' → m = 0 := by decide
      exact hall n hsmall (Option.some.inj h)
    · next hlarge =>
      have hhead : (Nat.toDigits 10 (n / 10)).head? = some '0' := by
        cases hdigits : Nat.toDigits 10 (n / 10) with
        | nil => exact absurd hdigits Nat.toDigits_ne_nil
        | cons c cs => rwa [hdigits] at h
      have := ih (n / 10) (by omega) hhead
      omega

/-- An integer is written like a natural number, with a minus sign before that if it is negative. -/
theorem intText_eq (n : Int) :
    (toString n).toList =
      if 0 ≤ n then (toString n.toNat).toList else '-' :: (toString (-n).toNat).toList := by
  rw [Int.toString_eq_repr, Int.repr_eq_if]
  split
  · rw [Nat.toString_eq_repr]
  · rw [Nat.toString_eq_repr, String.toList_append]
    rfl

theorem isDigit_or_minus_of_mem_intText {n : Int} {c : Char} (h : c ∈ (toString n).toList) :
    c.isDigit = true ∨ c = '-' := by
  rw [intText_eq] at h
  split at h
  · exact .inl (isDigit_of_mem_natText h)
  · rcases List.mem_cons.mp h with rfl | hdigit
    · exact .inr rfl
    · exact .inl (isDigit_of_mem_natText hdigit)

/-- A decimal text is made of characters from the minus sign to the digit nine. -/
theorem bounds_of_mem_intText {n : Int} {c : Char} (h : c ∈ (toString n).toList) :
    0x2D ≤ c.toNat ∧ c.toNat ≤ 0x39 := by
  rcases isDigit_or_minus_of_mem_intText h with hdigit | rfl
  · rw [Char.isDigit, Bool.and_eq_true, decide_eq_true_eq, decide_eq_true_eq] at hdigit
    exact ⟨Nat.le_trans (by decide) hdigit.1, hdigit.2⟩
  · decide

theorem readDigits_natText {range : Range} {negative : Bool} {n : Nat}
    (hspan : range.Spans (signed negative n)) :
    readDigits range negative (toString n).toList = .ok (signed negative n) := by
  have hvalue : Nat.ofDigitChars 10 (toString n).toList 0 = n := by
    rw [Nat.toString_eq_repr, Nat.toList_repr]
    exact Nat.ofDigitChars_ten_toDigits
  have hzero : signed negative 0 = 0 := by cases negative <;> rfl
  have hread : appendDigits range negative (signed negative 0) (toString n).toList =
      .ok (signed negative (Nat.ofDigitChars 10 (toString n).toList 0)) :=
    appendDigits_eq_ok (fun c hc => isDigit_of_mem_natText hc) (by rwa [hvalue])
  rw [hvalue, hzero] at hread
  cases hcs : (toString n).toList with
  | nil => exact absurd hcs (natText_ne_nil n)
  | cons c cs =>
    rw [hcs] at hread
    exact hread

/-- A natural number that the range holds is read back. -/
theorem read_natText {range : Range} {n : Nat} (hspan : range.Spans n) :
    read range (toString n).toList = .ok n := by
  have hread : readDigits range false (toString n).toList = .ok (signed false n) :=
    readDigits_natText hspan
  cases hcs : (toString n).toList with
  | nil => exact absurd hcs (natText_ne_nil n)
  | cons c cs =>
    have hmem : c ∈ (toString n).toList := by rw [hcs]; exact List.mem_cons_self
    have hdigit := isDigit_of_mem_natText hmem
    have hplus : c ≠ '+' := by rintro rfl; simp at hdigit
    have hminus : c ≠ '-' := by rintro rfl; simp at hdigit
    rw [hcs] at hread
    simpa [read, hplus, hminus, signed] using hread

/-- An integer that the range holds is read back. -/
theorem read_intText {range : Range} {n : Int} (hspan : range.Spans n) :
    read range (toString n).toList = .ok n := by
  rw [Int.toString_eq_repr, Int.repr_eq_if]
  split
  · next hn =>
    have hcast : ((n.toNat : Nat) : Int) = n := Int.toNat_of_nonneg hn
    have hread : read range (toString n.toNat).toList = .ok n.toNat :=
      read_natText (by rwa [hcast])
    rwa [hcast, Nat.toString_eq_repr] at hread
  · next hn =>
    have hsigned : signed true (-n).toNat = n := by
      simp only [signed, if_true]
      omega
    have hread : readDigits range true (toString (-n).toNat).toList =
        .ok (signed true (-n).toNat) :=
      readDigits_natText (by rwa [hsigned])
    have hleast : range.least < 0 := by
      have := hspan.least_le
      omega
    rw [hsigned, Nat.toString_eq_repr] at hread
    simp only [String.toList_append]
    simpa [read, hleast] using hread

theorem signed64_spans (n : Int64) : signed64.Spans n.toInt where
  least_le_zero := by decide
  zero_le_greatest := by decide
  least_le := Int64.le_toInt n
  le_greatest := Int64.toInt_le n

@[simp] theorem readInt64_toString (n : Int64) : readInt64 (toString n.toInt) = .ok n := by
  rw [readInt64, read_intText (signed64_spans n)]
  simp [Except.map]

/-- Different 64-bit integers have different texts. -/
theorem int64Text_inj {m n : Int64} (h : toString m.toInt = toString n.toInt) : m = n := by
  have hm := readInt64_toString m
  rw [h, readInt64_toString] at hm
  exact (Except.ok.inj hm).symm

theorem natText_inj {m n : Nat} (h : toString m = toString n) : m = n := by
  have hdigits : Nat.toDigits 10 m = Nat.toDigits 10 n := by
    simpa only [Nat.toString_eq_repr, Nat.toList_repr] using congrArg String.toList h
  rw [← Nat.ofDigitChars_ten_toDigits (n := m), hdigits, Nat.ofDigitChars_ten_toDigits]

theorem colon_notMem_natText (n : Nat) : ':' ∉ (toString n).toList := by
  intro h
  have := isDigit_of_mem_natText h
  simp at this

theorem colon_notMem_intText (n : Int) : ':' ∉ (toString n).toList := by
  intro h
  have := isDigit_or_minus_of_mem_intText h
  simp at this

end CheckerAudit.Numeral
