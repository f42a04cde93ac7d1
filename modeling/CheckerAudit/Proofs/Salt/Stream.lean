import CheckerAudit.Proofs.Run.Salts
import CheckerAudit.Salt.Stream
import CheckerAudit.Suite

/-!
# Draws follow the accepted words of the stream

A draw takes the words up to the first one that is accepted. On a stream that ends in zeros there is
always such a word, because zero is accepted, so every draw ends; and several draws take the
accepted words in order, with no word in two of them.
-/
namespace CheckerAudit.Salt

/-! ### What the halves of a product decide -/

theorem halves (w : UInt32) : Halves w (highHalf w) (lowHalf w) :=
  ⟨product_eq w, lowHalf_lt w⟩

section Halves

variable {w : UInt32} {high low : Nat}

theorem Halves.eq (h : Halves w high low) : highHalf w = high ∧ lowHalf w = low := by
  have hproduct := product_eq w
  have hlow := lowHalf_lt w
  rw [count_eq, h.product] at hproduct
  have hlt := h.low_lt
  omega

theorem Halves.isAccepted (h : Halves w high low) (hlow : low ≤ 4294967293) : accepts w = true := by
  rwa [accepts_iff, h.eq.2]

theorem Halves.isRefused (h : Halves w high low) (hlow : 4294967293 < low) : accepts w = false := by
  rwa [refuses_iff, h.eq.2]

theorem Halves.ofRandom_eq (h : Halves w high low) {s : Salt} (hs : s.toNat = 1 + high) :
    ofRandom w = s := by
  apply Salt.ext
  rw [toNat_ofRandom, h.eq.1, hs]

end Halves

section Stream

variable {stream : Nat → UInt32} {i j k : Nat} {s : Salt} {salts : List Salt}

theorem draws_of_accepts (h : accepts (stream i) = true) :
    Draws stream i (ofRandom (stream i)) (i + 1) :=
  .accepted (halves _) (accepts_iff.mp h) (toNat_ofRandom _)

theorem draws_of_refuses (h : accepts (stream i) = false) (hlater : Draws stream (i + 1) s j) :
    Draws stream i s j :=
  .refused (halves _) (refuses_iff.mp h) hlater

theorem Draws.lt (h : Draws stream i s j) : i < j := by
  induction h with
  | accepted => omega
  | refused _ _ ih => omega

theorem DrawsAll.le (h : DrawsAll stream i salts j) : i ≤ j := by
  induction h with
  | none => omega
  | more first _ ih =>
    have := first.lt
    omega

theorem Draws.unique {s' : Salt} {j' : Nat} (h : Draws stream i s j) (h' : Draws stream i s' j') :
    s = s' ∧ j = j' := by
  induction h with
  | accepted halves haccepts hpicks =>
    cases h' with
    | accepted halves' _ hpicks' =>
      exact ⟨(halves.ofRandom_eq hpicks).symm.trans (halves'.ofRandom_eq hpicks'), rfl⟩
    | refused halves' hrefuses _ =>
      have hsame := halves.eq.2.symm.trans halves'.eq.2
      omega
  | refused halves hrefuses _ ih =>
    cases h' with
    | accepted halves' haccepts _ =>
      have hsame := halves.eq.2.symm.trans halves'.eq.2
      omega
    | refused _ _ later => exact ih later

theorem DrawsAll.unique {salts' : List Salt} {j' : Nat} (h : DrawsAll stream i salts j)
    (h' : DrawsAll stream i salts' j') (hlength : salts.length = salts'.length) :
    salts = salts' ∧ j = j' := by
  induction h generalizing salts' with
  | none =>
    cases h' with
    | none => exact ⟨rfl, rfl⟩
    | more => cases hlength
  | more first _ ih =>
    cases h' with
    | none => cases hlength
    | more first' others' =>
      obtain ⟨rfl, rfl⟩ := first.unique first'
      obtain ⟨rfl, rfl⟩ := ih others' (Nat.succ.inj hlength)
      exact ⟨rfl, rfl⟩

theorem stretch_cons (h : i < j) :
    stretch stream i j = stream i :: stretch stream (i + 1) j := by
  have hlength : j - i = j - (i + 1) + 1 := by omega
  rw [stretch, stretch, hlength, List.range'_succ, List.map_cons]

theorem stretch_append (hij : i ≤ j) (hjk : j ≤ k) :
    stretch stream i j ++ stretch stream j k = stretch stream i k := by
  have hmiddle : i + (j - i) = j := by omega
  have hlength : j - i + (k - j) = k - i := by omega
  have hranges : List.range' i (j - i) ++ List.range' j (k - j) = List.range' i (k - i) := by
    have happend := List.range'_append_1 (s := i) (m := j - i) (n := k - j)
    rwa [hmiddle, hlength] at happend
  rw [stretch, stretch, stretch, ← List.map_append, hranges]

/-- Of the words that a draw takes, one is accepted. -/
theorem Draws.accepted_stretch (h : Draws stream i s j) :
    ((stretch stream i j).filter accepts).map ofRandom = [s] := by
  induction h with
  | @accepted i high low s halves haccepts hpicks =>
    rw [stretch_cons (Nat.lt_succ_self i), List.filter_cons_of_pos (halves.isAccepted haccepts),
      stretch, Nat.sub_self, ← halves.ofRandom_eq hpicks]
    rfl
  | refused halves hrefuses later ih =>
    have hlt := later.lt
    have hskipped := halves.isRefused hrefuses
    rw [stretch_cons (by omega), List.filter_cons_of_neg (by simp [hskipped]), ih]

/-- Draws take the accepted words in order, each of them once. -/
theorem DrawsAll.accepted_stretch (h : DrawsAll stream i salts j) :
    ((stretch stream i j).filter accepts).map ofRandom = salts := by
  induction h with
  | @none i =>
    rw [stretch, Nat.sub_self]
    rfl
  | more first others ih =>
    rw [← stretch_append (Nat.le_of_lt first.lt) others.le, List.filter_append, List.map_append,
      first.accepted_stretch, ih, List.singleton_append]

/-- The words behind the draws have no part in them. -/
theorem DrawsAll.take_accepted (h : DrawsAll stream 0 salts j) (hjk : j ≤ k) :
    (((stretch stream 0 k).filter accepts).take salts.length).map ofRandom = salts := by
  have hsalts := h.accepted_stretch
  have hlength : salts.length = ((stretch stream 0 j).filter accepts).length := by
    rw [← hsalts, List.length_map]
  rw [← stretch_append (Nat.zero_le j) hjk, List.filter_append, hlength, List.take_left, hsalts]

end Stream

/-! ### A list of words and zeros behind it -/

theorem withZeros_drop (words : List UInt32) (n i : Nat) :
    withZeros (words.drop n) i = withZeros words (n + i) := by
  rw [withZeros, withZeros, List.getD_eq_getElem?_getD, List.getElem?_drop,
    List.getD_eq_getElem?_getD]

/-- From every position a draw ends, at the latest with the first zero behind the words. -/
theorem exists_draws (words : List UInt32) (i : Nat) :
    ∃ j ≤ max words.length i + 1,
      Draws (withZeros words) i (draw (words.drop i)).1 j ∧
        (draw (words.drop i)).2 = words.drop j := by
  -- The words that are left decrease with each one that is refused.
  induction hleft : words.drop i generalizing i with
  | nil =>
    have hend : words.length ≤ i := List.drop_eq_nil_iff.mp hleft
    have hzero : withZeros words i = 0 := by
      rw [withZeros, List.getD_eq_getElem?_getD, List.getElem?_eq_none hend, Option.getD_none]
    have hdraws : Draws (withZeros words) i (ofRandom (withZeros words i)) (i + 1) :=
      draws_of_accepts (by rw [hzero, accepts_zero])
    rw [hzero] at hdraws
    exact ⟨i + 1, by omega, hdraws, (List.drop_eq_nil_of_le (by omega)).symm⟩
  | cons w rest ih =>
    have hlt : i < words.length := by
      have hlength := congrArg List.length hleft
      simp only [List.length_drop, List.length_cons] at hlength
      omega
    have hword : withZeros words i = w := by
      have hfirst := withZeros_drop words i 0
      rw [hleft] at hfirst
      exact hfirst.symm
    have hrest : words.drop (i + 1) = rest := by
      rw [← List.drop_drop, hleft, List.drop_one, List.tail_cons]
    cases haccepts : accepts w with
    | true =>
      rw [draw_accepted haccepts]
      rw [← hword] at haccepts ⊢
      exact ⟨i + 1, by omega, draws_of_accepts haccepts, hrest.symm⟩
    | false =>
      obtain ⟨j, hj, hdraws, hbehind⟩ := ih (i + 1) hrest
      rw [draw_refused haccepts]
      rw [← hword] at haccepts
      exact ⟨j, by omega, draws_of_refuses haccepts hdraws, hbehind⟩

theorem exists_drawsAll (words : List UInt32) (n i : Nat) :
    ∃ j ≤ max words.length i + n,
      DrawsAll (withZeros words) i (drawMany n (words.drop i)).1 j ∧
        (drawMany n (words.drop i)).2 = words.drop j := by
  induction n generalizing i with
  | zero => exact ⟨i, by omega, .none, rfl⟩
  | succ n ih =>
    obtain ⟨j, hj, hfirst, hleft⟩ := exists_draws words i
    obtain ⟨k, hk, hothers, hbehind⟩ := ih j
    rw [drawMany_succ, hleft]
    exact ⟨k, by omega, .more hfirst hothers, hbehind⟩

theorem length_drawMany (n : Nat) (words : List UInt32) : (drawMany n words).1.length = n := by
  induction n generalizing words with
  | zero => rfl
  | succ n ih => rw [drawMany_succ, List.length_cons, ih]

/-- Several draws are those of the random source of a run. -/
theorem drawMany_eq_drawn (n : Nat) (words : List UInt32) :
    drawMany n words = (SaltSource.random.drawn words n, SaltSource.random.after words n) := by
  induction n generalizing words with
  | zero => rfl
  | succ n ih =>
    rw [drawMany_succ, ih]
    rfl

theorem drawMany_add (m n : Nat) (words : List UInt32) :
    drawMany (m + n) words =
      ((drawMany m words).1 ++ (drawMany n (drawMany m words).2).1,
        (drawMany n (drawMany m words).2).2) := by
  simp only [drawMany_eq_drawn, SaltSource.drawn_add, SaltSource.after_add]

theorem highHalf_eq (w : UInt32) : highHalf w = w.toNat * 2147483647 / 4294967296 := by
  rw [highHalf, count_eq]

theorem lowHalf_eq (w : UInt32) : lowHalf w = w.toNat * 2147483647 % 4294967296 := by
  rw [lowHalf, count_eq]

/-- The accepted words and the salts that they pick, by the product of each word. -/
theorem map_filter_accepts (words : List UInt32) (n : Nat) :
    (((words.filter accepts).take n).map ofRandom).map toNat =
      ((words.filter fun w => w.toNat * 2147483647 % 4294967296 ≤ 4294967293).take n).map
        fun w => 1 + w.toNat * 2147483647 / 4294967296 := by
  have hfilter : words.filter accepts =
      words.filter fun w => w.toNat * 2147483647 % 4294967296 ≤ 4294967293 :=
    List.filter_congr fun w _ => by rw [accepts, lowHalf_eq, zone]
  rw [List.map_map, hfilter]
  exact List.map_congr_left fun w _ => by rw [Function.comp_apply, toNat_ofRandom, highHalf_eq]

/-- On words with zeros behind them several draws end, in one way. Their salts are those of the
first accepted words, and what is left is the stream from there on. A word is accepted by the low
half of its product with the number of salts and picks the salt of the high half, which is a salt as
it is. To draw again from what is left is to go on. -/
theorem draws_follow_accepted_words (words : List UInt32) (n : Nat) :
    ∃ hi lo : UInt32 → Nat, ∃ salts left,
      (∀ w, w.toNat * 2147483647 = hi w * 4294967296 + lo w ∧ lo w < 4294967296) ∧
      drawMany n words = (salts, left) ∧
      (salts = SaltSource.random.drawn words n ∧ left = SaltSource.random.after words n) ∧
      (∃ used ≤ words.length + n,
        (∀ drawn j, DrawsAll (withZeros words) 0 drawn j ∧ drawn.length = n ↔
          drawn = salts ∧ j = used) ∧
        (∀ i, withZeros left i = withZeros words (used + i)) ∧
        ∀ k, used ≤ k → salts.map toNat =
          (((stretch (withZeros words) 0 k).filter fun w => lo w ≤ 4294967293).take n).map
            fun w => 1 + hi w) ∧
      (∀ w, 1 + hi w ≤ 2147483647 ∧
        (nearest (UInt32.ofNat (1 + hi w))).toNat = 1 + hi w ∧
        ofWord? (UInt32.ofNat (1 + hi w)) = some (nearest (UInt32.ofNat (1 + hi w)))) ∧
      ∀ m, drawMany (n + m) words = (salts ++ (drawMany m left).1, (drawMany m left).2) := by
  let hi (w : UInt32) := w.toNat * 2147483647 / 4294967296
  let lo (w : UInt32) := w.toNat * 2147483647 % 4294967296
  have hhigh (w : UInt32) : hi w = highHalf w := (highHalf_eq w).symm
  have hhalves (w : UInt32) :
      w.toNat * 2147483647 = hi w * 4294967296 + lo w ∧ lo w < 4294967296 :=
    ⟨(Nat.div_add_mod' (w.toNat * 2147483647) 4294967296).symm, Nat.mod_lt _ (by decide)⟩
  obtain ⟨used, hused, hdraws, hleft⟩ := exists_drawsAll words n 0
  rw [List.drop_zero] at hdraws hleft
  have hlength : (drawMany n words).1.length = n := length_drawMany n words
  refine ⟨hi, lo, _, _, hhalves, rfl, Prod.mk.inj (drawMany_eq_drawn n words),
    ⟨used, by omega, ?_, ?_, ?_⟩, ?_, ?_⟩
  · intro drawn j
    constructor
    · rintro ⟨hdrawn, hcount⟩
      exact hdrawn.unique hdraws (hcount.trans hlength.symm)
    · rintro ⟨rfl, rfl⟩
      exact ⟨hdraws, hlength⟩
  · intro i
    rw [hleft, withZeros_drop]
  · intro k hk
    have hsalts := hdraws.take_accepted hk
    rw [hlength] at hsalts
    rw [← map_filter_accepts, hsalts]
  · intro w
    have hlt := highHalf_lt w
    rw [hhigh]
    exact ⟨by omega, toNat_ofRandom w, ofWord?_succ_highHalf w⟩
  · intro m
    exact drawMany_add n m words

end CheckerAudit.Salt
