import CheckerAudit.Salt.Basic

/-!
Uniform salts from a stream of random words. A word is spread over the range by a widening
multiplication: the high half of the product picks the salt, and a low half above the zone turns
the word down, which leaves each salt the same number of words.
-/
namespace CheckerAudit.Salt

/-- How many salts there are: the least of them is one. -/
def count : Nat := greatest.toNat

/-- The last low half that is accepted: 2^32 less what does not divide evenly, less one. -/
def zone : Nat := 4294967293

/-- The upper 32 bits of the widened product. -/
def highHalf (w : UInt32) : Nat :=
  w.toNat * count / 4294967296

/-- The lower 32 bits of the widened product. -/
def lowHalf (w : UInt32) : Nat :=
  w.toNat * count % 4294967296

/-- A word is accepted when its low half lies in the zone. -/
def accepts (w : UInt32) : Bool :=
  lowHalf w ≤ zone

/-- The salt a word picks. -/
def ofRandom (w : UInt32) : Salt :=
  nearest (UInt32.ofNat (1 + highHalf w))

/-- Draws a salt from words that are followed by zeros, and leaves the words after the accepted
one. -/
def draw : List UInt32 → Salt × List UInt32
  | [] => (ofRandom 0, [])
  | w :: rest => if accepts w then (ofRandom w, rest) else draw rest

/-- Draws several salts, one after the other. -/
def drawMany : Nat → List UInt32 → List Salt × List UInt32
  | 0, words => ([], words)
  | n + 1, words =>
    let (first, left) := draw words
    let (others, rest) := drawMany n left
    (first :: others, rest)

@[simp] theorem count_eq : count = 2147483647 := rfl

/-! ### The halves of a product -/

theorem product_eq (w : UInt32) : w.toNat * count = highHalf w * 4294967296 + lowHalf w :=
  (Nat.div_add_mod' (w.toNat * count) 4294967296).symm

theorem lowHalf_lt (w : UInt32) : lowHalf w < 4294967296 :=
  Nat.mod_lt _ (by decide)

theorem accepts_iff {w : UInt32} : accepts w = true ↔ lowHalf w ≤ zone :=
  decide_eq_true_iff

theorem refuses_iff {w : UInt32} : accepts w = false ↔ zone < lowHalf w := by
  rw [← Bool.not_eq_true, accepts_iff, Nat.not_le]

/-- The zeros at the end of the words are accepted, so every draw ends. -/
@[simp] theorem accepts_zero : accepts 0 = true := by decide

/-- The high half picks one of the salts. -/
theorem highHalf_lt (w : UInt32) : highHalf w < 2147483647 := by
  have := w.toNat_lt
  simp only [highHalf, count_eq]
  omega

theorem toNat_succ_highHalf (w : UInt32) :
    (UInt32.ofNat (1 + highHalf w)).toNat = 1 + highHalf w := by
  have hlt := highHalf_lt w
  exact UInt32.toNat_ofNat_of_lt' (show 1 + highHalf w < 4294967296 by omega)

/-- What a word picks is in the range already. -/
theorem ofWord?_succ_highHalf (w : UInt32) :
    ofWord? (UInt32.ofNat (1 + highHalf w)) = some (ofRandom w) := by
  have hlt := highHalf_lt w
  have hword := toNat_succ_highHalf w
  have hrange : least ≤ UInt32.ofNat (1 + highHalf w) ∧
      UInt32.ofNat (1 + highHalf w) ≤ greatest := by
    rw [UInt32.le_iff_toNat_le, UInt32.le_iff_toNat_le, hword, toNat_least, toNat_greatest]
    omega
  have hsome : ofWord? (UInt32.ofNat (1 + highHalf w)) = some ⟨_, hrange.1, hrange.2⟩ :=
    dif_pos hrange
  rw [hsome, ofRandom, nearest_of_ofWord? hsome]

@[simp] theorem toNat_ofRandom (w : UInt32) : (ofRandom w).toNat = 1 + highHalf w := by
  rw [toNat_of_ofWord? (ofWord?_succ_highHalf w), toNat_succ_highHalf]

/-! ### One step of the loop -/

@[simp] theorem draw_accepted {w : UInt32} (h : accepts w = true) (rest : List UInt32) :
    draw (w :: rest) = (ofRandom w, rest) :=
  if_pos h

@[simp] theorem draw_refused {w : UInt32} (h : accepts w = false) (rest : List UInt32) :
    draw (w :: rest) = draw rest :=
  if_neg (by rw [h]; exact Bool.false_ne_true)

@[simp] theorem drawMany_succ (n : Nat) (words : List UInt32) :
    drawMany (n + 1) words =
      ((draw words).1 :: (drawMany n (draw words).2).1, (drawMany n (draw words).2).2) := rfl

end CheckerAudit.Salt
