import CheckerAudit.Salt.Draw
import Mathlib.Algebra.Order.Floor.Div
import Mathlib.Probability.Distributions.Uniform

/-!
# Every salt has two words

The words that pick a salt are those whose product with the number of salts falls into the salt's
window. The window is as wide as two salts, so two multiples lie in it wherever it begins; what is
left over at the end of all windows turns two words down.
-/
namespace CheckerAudit.Salt

open scoped ENNReal

/-! ### Windows -/

/-- A window as wide as two steps holds two multiples of the step, wherever it begins. -/
theorem multiple_in_window_iff {width : ℕ} (hwidth : 0 < width) (start v : ℕ) :
    start ≤ v * width ∧ v * width < start + 2 * width ↔
      v = start ⌈/⌉ width ∨ v = start ⌈/⌉ width + 1 := by
  have hreach {k : ℕ} : start ⌈/⌉ width ≤ k ↔ start ≤ k * width := by
    rw [ceilDiv_le_iff_le_mul hwidth, Nat.mul_comm]
  have hshort : v * width < start + 2 * width ↔ v < start ⌈/⌉ width + 2 := by
    rcases Nat.lt_or_ge v 2 with hv | hv
    · have hsmall : v * width < 2 * width := Nat.mul_lt_mul_of_pos_right hv hwidth
      omega
    · have hback := (hreach (k := v - 2)).not
      rw [Nat.sub_mul] at hback
      have htwo : 2 * width ≤ v * width := Nat.mul_le_mul_right width hv
      omega
  rw [← hreach, hshort]
  omega

/-- Where the products of the words begin that pick a salt. -/
def windowStart (s : Salt) : ℕ := (s.toNat - 1) * 4294967296

/-- The least of the words that pick a salt. -/
def firstWord (s : Salt) : ℕ := windowStart s ⌈/⌉ count

theorem picks_iff {w : UInt32} {s : Salt} :
    accepts w = true ∧ ofRandom w = s ↔
      windowStart s ≤ w.toNat * count ∧ w.toNat * count < windowStart s + 2 * count := by
  have hlow := lowHalf_lt w
  have hsalt : ofRandom w = s ↔ 1 + highHalf w = s.toNat := by
    rw [← toNat_ofRandom]
    exact ⟨congrArg toNat, Salt.ext⟩
  have hone := s.one_le_toNat
  rw [accepts_iff, hsalt, product_eq, windowStart]
  simp only [zone, count_eq]
  omega

theorem picks_iff_first {w : UInt32} {s : Salt} :
    accepts w = true ∧ ofRandom w = s ↔ w.toNat = firstWord s ∨ w.toNat = firstWord s + 1 := by
  rw [picks_iff]
  exact multiple_in_window_iff (by decide) _ _

theorem firstWord_lt (s : Salt) : firstWord s + 1 < 4294967296 := by
  have hhigh := s.toNat_le
  have hcount : 0 < count := by decide
  have hmultiple :=
    (multiple_in_window_iff hcount (windowStart s) (firstWord s + 1)).mpr (.inr rfl)
  simp only [windowStart, count_eq] at hmultiple
  omega

theorem eq_ofNat_iff {w : UInt32} {n : ℕ} (hn : n < 4294967296) :
    w = UInt32.ofNat n ↔ w.toNat = n := by
  rw [← UInt32.toNat_inj, UInt32.toNat_ofNat_of_lt' hn]

theorem picking_words (s : Salt) :
    {w : UInt32 | accepts w = true ∧ ofRandom w = s} =
      {UInt32.ofNat (firstWord s), UInt32.ofNat (firstWord s + 1)} := by
  have hlt := firstWord_lt s
  ext w
  rw [Set.mem_ofPred_eq, picks_iff_first, Set.mem_insert_iff, Set.mem_singleton_iff,
    eq_ofNat_iff (by omega), eq_ofNat_iff hlt]

/-- The number of salts is its own inverse modulo the number of words, so a low half tells its
word. -/
theorem lowHalf_mul_count (w : UInt32) : lowHalf w * count % 4294967296 = w.toNat := by
  have hinverse : w.toNat * count * count = w.toNat + 4294967296 * (1073741823 * w.toNat) := by
    simp only [count_eq]
    omega
  rw [lowHalf, Nat.mod_mul_mod, hinverse, Nat.add_mul_mod_self_left, Nat.mod_eq_of_lt w.toNat_lt]

theorem refused_words : {w : UInt32 | accepts w = false} = {2, 2147483649} := by
  ext w
  have hrefused : accepts w = false ↔ lowHalf w = 4294967294 ∨ lowHalf w = 4294967295 := by
    have hlow := lowHalf_lt w
    rw [refuses_iff]
    simp only [zone]
    omega
  have htwo : w = 2 ↔ w.toNat = 2 := eq_ofNat_iff (by decide)
  have hlast : w = 2147483649 ↔ w.toNat = 2147483649 := eq_ofNat_iff (by decide)
  rw [Set.mem_ofPred_eq, Set.mem_insert_iff, Set.mem_singleton_iff, hrefused, htwo, hlast]
  constructor
  · rintro (hlow | hlow)
    · left
      rw [← lowHalf_mul_count, hlow]
      rfl
    · right
      rw [← lowHalf_mul_count, hlow]
      rfl
  · rintro (hw | hw)
    · left
      rw [lowHalf, hw]
      rfl
    · right
      rw [lowHalf, hw]
      rfl

theorem encard_picking_words (s : Salt) :
    {w : UInt32 | accepts w = true ∧ ofRandom w = s}.encard = 2 := by
  have hlt := firstWord_lt s
  rw [picking_words]
  apply Set.encard_pair
  rw [Ne, eq_ofNat_iff hlt, UInt32.toNat_ofNat_of_lt' (show firstWord s < 4294967296 by omega)]
  omega

theorem encard_refused_words : {w : UInt32 | accepts w = false}.encard = 2 := by
  rw [refused_words]
  exact Set.encard_pair (by decide)

/-! ### Uniform words -/

/-- One of the 2^32 words, all with the same probability. -/
noncomputable def randomWord : PMF UInt32 :=
  (PMF.uniformOfFintype (Fin UInt32.size)).map UInt32.ofFin

theorem randomWord_apply (w : UInt32) : randomWord w = (4294967296 : ℝ≥0∞)⁻¹ := by
  rw [randomWord, PMF.map_apply, tsum_eq_single w.toFin]
  · rw [if_pos (UInt32.ofFin_toFin w).symm, PMF.uniformOfFintype_apply, Fintype.card_fin]
    rfl
  · intro i hi
    apply if_neg
    rintro rfl
    exact hi rfl

theorem exists_accepted : ∃ w ∈ {w : UInt32 | accepts w = true}, w ∈ randomWord.support := by
  refine ⟨0, accepts_zero, ?_⟩
  rw [PMF.mem_support_iff, randomWord_apply]
  simp

theorem tsum_indicator_randomWord (words : Set UInt32) :
    (tsum fun w => words.indicator randomWord w) = words.encard * (4294967296 : ℝ≥0∞)⁻¹ := by
  rw [← ENNReal.tsum_set_const, ← tsum_subtype]
  exact tsum_congr fun w => randomWord_apply w

theorem encard_words : (Set.univ : Set UInt32).encard = 4294967296 := by
  have hwords : UInt32 ≃ Fin UInt32.size :=
    ⟨UInt32.toFin, UInt32.ofFin, UInt32.ofFin_toFin, UInt32.toFin_ofFin⟩
  rw [Set.encard_univ, ENat.card_congr hwords, ENat.card_eq_coe_fintype_card, Fintype.card_fin]
  rfl

theorem encard_accepted_words : {w : UInt32 | accepts w = true}.encard = 4294967294 := by
  have hrest : {w : UInt32 | accepts w = false}ᶜ = {w : UInt32 | accepts w = true} := by
    ext w
    simp
  have hsum := Set.encard_add_encard_compl {w : UInt32 | accepts w = false}
  rw [hrest, encard_refused_words, encard_words] at hsum
  have htwo : (2 : ℕ∞) ≠ ⊤ := by decide
  exact ENat.add_right_injective_of_ne_top htwo (hsum.trans (by norm_num))

/-- The law of the salt that an accepted word picks. -/
noncomputable def randomSalt : PMF Salt :=
  (randomWord.filter {w | accepts w = true} exists_accepted).map ofRandom

theorem randomSalt_apply (s : Salt) : randomSalt s = (2147483647 : ℝ≥0∞)⁻¹ := by
  have hmass : (tsum fun w => {w : UInt32 | accepts w = true}.indicator randomWord w) =
      4294967294 * (4294967296 : ℝ≥0∞)⁻¹ := by
    rw [tsum_indicator_randomWord, encard_accepted_words]
    rfl
  classical
  calc randomSalt s
      = tsum fun w => {w : UInt32 | accepts w = true ∧ ofRandom w = s}.indicator randomWord w *
          (4294967294 * (4294967296 : ℝ≥0∞)⁻¹)⁻¹ := by
        rw [randomSalt, PMF.map_apply]
        refine tsum_congr fun w => ?_
        rw [PMF.filter_apply, hmass]
        by_cases hs : ofRandom w = s
        · rw [if_pos hs.symm]
          congr 1
          exact Set.indicator_eq_indicator (by simp [hs]) rfl
        · rw [if_neg (Ne.symm hs), Set.indicator_of_notMem fun hw => hs hw.2, zero_mul]
    _ = 2 * (4294967296 : ℝ≥0∞)⁻¹ * (4294967294 * (4294967296 : ℝ≥0∞)⁻¹)⁻¹ := by
        rw [ENNReal.tsum_mul_right, tsum_indicator_randomWord, encard_picking_words]
        rfl
    _ = (2147483647 : ℝ≥0∞)⁻¹ := by
        have hunit : (2 * (4294967296 : ℝ≥0∞)⁻¹) * (2 * (4294967296 : ℝ≥0∞)⁻¹)⁻¹ = 1 :=
          ENNReal.mul_inv_cancel (by simp) (by finiteness)
        have hall : (4294967294 : ℝ≥0∞) * (4294967296 : ℝ≥0∞)⁻¹ =
            (2 * (4294967296 : ℝ≥0∞)⁻¹) * 2147483647 := by
          rw [mul_right_comm]
          norm_num
        rw [hall, ENNReal.mul_inv (.inr (by simp)) (.inr (by simp)), ← mul_assoc, hunit, one_mul]

/-- The lower half of a word's product accepts it, and the upper half picks its salt. Two words are
accepted for each salt and two are turned down, so a uniform word that is accepted picks all salts
with the same probability. -/
theorem draw_uniform :
    (∀ w : UInt32, ∃ high low : ℕ, w.toNat * 2147483647 = high * 4294967296 + low ∧
      low < 4294967296 ∧ (accepts w = true ↔ low ≤ 4294967293) ∧
      (ofRandom w).toNat = 1 + high) ∧
    (∀ s : Salt,
      {w : UInt32 | accepts w = true ∧ ∀ rest, draw (w :: rest) = (s, rest)}.encard = 2) ∧
    {w : UInt32 | accepts w = false ∧ ∀ rest, draw (w :: rest) = draw rest}.encard = 2 ∧
    ∀ s : Salt, randomSalt s = (2147483647 : ℝ≥0∞)⁻¹ := by
  refine ⟨?_, ?_, ?_, randomSalt_apply⟩
  · intro w
    exact ⟨highHalf w, lowHalf w, product_eq w, lowHalf_lt w, accepts_iff, toNat_ofRandom w⟩
  · intro s
    have hwords : {w : UInt32 | accepts w = true ∧ ∀ rest, draw (w :: rest) = (s, rest)} =
        {w : UInt32 | accepts w = true ∧ ofRandom w = s} := by
      ext w
      apply and_congr_right
      intro haccepts
      simp only [draw_accepted haccepts, Prod.mk.injEq, and_true, forall_const]
    rw [hwords, encard_picking_words]
  · have hwords : {w : UInt32 | accepts w = false ∧ ∀ rest, draw (w :: rest) = draw rest} =
        {w : UInt32 | accepts w = false} := by
      ext w
      exact and_iff_left_of_imp draw_refused
    rw [hwords, encard_refused_words]

end CheckerAudit.Salt
