/-!
Lower-case hexadecimal: two digits a byte, the high one first.
-/
namespace CheckerAudit.Text.Hex

/-- The sixteen digits in the order of their values. -/
def digits : List Char :=
  ['0', '1', '2', '3', '4', '5', '6', '7', '8', '9', 'a', 'b', 'c', 'd', 'e', 'f']

/-- The digit of a value below sixteen. -/
def digit (n : Nat) : Char :=
  digits.getD n '0'

/-- The two digits of a byte. -/
def ofByte (b : UInt8) : List Char :=
  [digit (b.toNat / 16), digit (b.toNat % 16)]

/-- The digits of a byte string. -/
def encode (bytes : List UInt8) : List Char :=
  bytes.flatMap ofByte

@[simp] theorem length_encode (bytes : List UInt8) : (encode bytes).length = 2 * bytes.length := by
  induction bytes with
  | nil => rfl
  | cons b bytes ih =>
    simp only [encode, List.flatMap_cons, List.length_append, List.length_cons] at ih ⊢
    rw [ih]
    simp [ofByte]
    omega

theorem digit_mem (n : Nat) : digit n ∈ digits := by
  rw [digit, List.getD_eq_getElem?_getD]
  cases h : digits[n]? with
  | none => exact List.mem_cons_self
  | some d => exact List.mem_of_getElem? h

/-- Nothing but digits is written. -/
theorem mem_digits_of_mem_encode {bytes : List UInt8} {c : Char} (h : c ∈ encode bytes) :
    c ∈ digits := by
  obtain ⟨b, -, hc⟩ := List.mem_flatMap.mp h
  simp only [ofByte, List.mem_cons, List.not_mem_nil, or_false] at hc
  rcases hc with rfl | rfl <;> exact digit_mem _

theorem digit_inj : ∀ m < 16, ∀ n < 16, digit m = digit n → m = n := by decide

theorem ofByte_inj {a b : UInt8} (h : ofByte a = ofByte b) : a = b := by
  have ha := a.toNat_lt
  have hb := b.toNat_lt
  simp only [ofByte, List.cons.injEq, and_true] at h
  have hhigh := digit_inj (a.toNat / 16) (by omega) (b.toNat / 16) (by omega) h.1
  have hlow := digit_inj (a.toNat % 16) (by omega) (b.toNat % 16) (by omega) h.2
  apply UInt8.toNat_inj.mp
  omega

/-- Different byte strings have different digits. -/
theorem encode_inj {a b : List UInt8} (h : encode a = encode b) : a = b := by
  induction a generalizing b with
  | nil =>
    cases b with
    | nil => rfl
    | cons y ys => simp [encode, ofByte] at h
  | cons x xs ih =>
    cases b with
    | nil => simp [encode, ofByte] at h
    | cons y ys =>
      simp only [encode, List.flatMap_cons] at h
      obtain ⟨hbyte, hrest⟩ := List.append_inj h rfl
      rw [ofByte_inj hbyte, ih hrest]

end CheckerAudit.Text.Hex
