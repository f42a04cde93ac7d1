/-!
Salts: the single-use challenges between 1 and 2^31 - 1 that a checker is launched with.
-/
namespace CheckerAudit

/-- The smallest salt. -/
def Salt.least : UInt32 := 1

/-- The largest salt. -/
def Salt.greatest : UInt32 := 2147483647

/-- A challenge that fits a positive signed 32-bit integer. -/
structure Salt where
  word : UInt32
  least_le : Salt.least ≤ word
  le_greatest : word ≤ Salt.greatest
deriving DecidableEq, Repr

namespace Salt

instance : Inhabited Salt := ⟨⟨least, by decide, by decide⟩⟩

/-- The salt of a word in the range. -/
def ofWord? (w : UInt32) : Option Salt :=
  if h : least ≤ w ∧ w ≤ greatest then some ⟨w, h.1, h.2⟩ else none

/-- The salt nearest to a word. -/
def nearest (w : UInt32) : Salt :=
  if low : w < least then ⟨least, by decide, by decide⟩
  else if high : greatest < w then ⟨greatest, by decide, by decide⟩
  else ⟨w, UInt32.not_lt.mp low, UInt32.not_lt.mp high⟩

/-- The number that a salt is. -/
def toNat (s : Salt) : Nat :=
  s.word.toNat

/-- A salt in decimal. -/
def text (s : Salt) : String :=
  toString s.toNat

@[ext] theorem ext {s t : Salt} (h : s.toNat = t.toNat) : s = t := by
  cases s; cases t
  simp only [toNat] at h
  simpa using UInt32.toNat_inj.mp h

@[simp] theorem toNat_least : least.toNat = 1 := rfl

@[simp] theorem toNat_greatest : greatest.toNat = 2147483647 := rfl

theorem one_le_toNat (s : Salt) : 1 ≤ s.toNat :=
  UInt32.le_iff_toNat_le.mp s.least_le

theorem toNat_le (s : Salt) : s.toNat ≤ 2147483647 :=
  UInt32.le_iff_toNat_le.mp s.le_greatest

theorem toNat_of_ofWord? {w : UInt32} {s : Salt} (h : ofWord? w = some s) :
    s.toNat = w.toNat := by
  unfold ofWord? at h
  split at h
  · rw [← Option.some.inj h, toNat]
  · cases h

/-- A word in the range is its own nearest salt. -/
theorem nearest_of_ofWord? {w : UInt32} {s : Salt} (h : ofWord? w = some s) : nearest w = s := by
  unfold ofWord? at h
  split at h
  · next hw =>
    obtain rfl := Option.some.inj h
    rw [nearest, dif_neg (UInt32.not_lt.mpr hw.1), dif_neg (UInt32.not_lt.mpr hw.2)]
  · cases h

end Salt

end CheckerAudit
