import CheckerAudit.Proofs.Text.Utf8

/-!
# A line feed ends whatever was broken before it

No byte below 128 goes on with a character, and no character of more than one byte stands for one
below 128, since overlong forms are shut out by the bounds on the second byte. So a line feed in the
bytes is one in the text and the other way round, and what stands before it and after it is decoded
on its own, whatever is broken there.
-/
namespace CheckerAudit.Text.Utf8

/-- The byte of a line feed. -/
def lineFeed : UInt8 := 0x0A

/-- Inside a character the next byte is no ASCII byte, and the least value that the character can
have with it is no ASCII value if it is the last byte. Before that it is enough that the value has
begun beyond the six bits that a later byte brings. -/
def Place.Wide : Place → Prop
  | .boundary => True
  | .inside missing low _ value =>
    0x80 ≤ low.toNat ∧ 2 ≤ value * 64 + (low.toNat - 0x80) ∧
      (missing ≤ 1 → 0x80 ≤ value * 64 + (low.toNat - 0x80))

theorem wide_start : ({} : Decoder).place.Wide :=
  trivial

theorem wide_begin (b : UInt8) : (begin b).1.Wide := by
  simp only [begin]
  repeat' split
  all_goals simp [Place.Wide]
  all_goals omega

theorem Place.Wide.step {place : Place} (h : place.Wide) (b : UInt8) : (step place b).1.Wide := by
  cases place with
  | boundary => exact wide_begin b
  | inside missing low high value =>
    obtain ⟨hlow, hbegun, -⟩ := h
    simp only [Utf8.step]
    split
    · next hb =>
      have hle : low.toNat ≤ b.toNat := hb.1
      split
      · trivial
      · have hleast : (0x80 : UInt8).toNat = 0x80 := by decide
        simp only [Place.Wide, hleast]
        omega
    · exact wide_begin b

theorem wide_foldl_push {d : Decoder} (h : d.place.Wide) (bytes : Bytes) :
    (bytes.foldl Decoder.push d).place.Wide := by
  induction bytes generalizing d with
  | nil => exact h
  | cons b bytes ih => exact ih (h.step b)

/-! ### A line feed is read on its own -/

/-- A line feed ends the text before it. -/
theorem push_lineFeed {d : Decoder} (h : d.place.Wide) :
    d.push lineFeed = ⟨.boundary, some '\n' :: d.finish.reverse⟩ := by
  obtain ⟨place, before⟩ := d
  cases place with
  | boundary =>
    rw [Decoder.finish, List.reverse_reverse]
    rfl
  | inside missing low high value =>
    have hlow : 0x80 ≤ low.toNat := h.1
    have hshut : ¬ (low ≤ lineFeed ∧ lineFeed ≤ high) := by
      intro hb
      have hle : low.toNat ≤ 0x0A := hb.1
      omega
    rw [Decoder.push, step, if_neg hshut, Decoder.finish, List.reverse_reverse]
    rfl

/-- Pieces that were read before stand before those of the rest. -/
theorem finish_foldl_push (place : Place) (ended before : List (Option Char)) (bytes : Bytes) :
    (bytes.foldl Decoder.push ⟨place, ended ++ before⟩).finish =
      before.reverse ++ (bytes.foldl Decoder.push ⟨place, ended⟩).finish := by
  induction bytes generalizing place ended with
  | nil => cases place <;> simp [Decoder.finish]
  | cons b bytes ih =>
    rw [List.foldl_cons, List.foldl_cons, Decoder.push, Decoder.push, ← List.append_assoc, ih]

theorem pieces_lineFeed (a b : Bytes) :
    pieces (a ++ lineFeed :: b) = pieces a ++ some '\n' :: pieces b := by
  have hwide : (a.foldl Decoder.push {}).place.Wide := wide_foldl_push wide_start a
  have hrest := finish_foldl_push .boundary [] (some '\n' :: (pieces a).reverse) b
  rw [List.nil_append] at hrest
  rw [pieces, List.foldl_append, List.foldl_cons, push_lineFeed hwide]
  change (b.foldl Decoder.push ⟨.boundary, some '\n' :: (pieces a).reverse⟩).finish = _
  rw [hrest, List.reverse_cons, List.reverse_reverse, List.append_assoc, List.singleton_append]
  rfl

@[simp] theorem decodeLossy_lineFeed (a b : Bytes) :
    decodeLossy (a ++ lineFeed :: b) = decodeLossy a ++ '\n' :: decodeLossy b := by
  rw [decodeLossy, pieces_lineFeed, List.map_append, List.map_cons]
  rfl

theorem decodeLossy_cons_lineFeed (b : Bytes) :
    decodeLossy (lineFeed :: b) = '\n' :: decodeLossy b :=
  decodeLossy_lineFeed [] b

/-- Whole lines are decoded to whole lines, and apart from what is behind them. -/
theorem decodeLossy_ended {front : Bytes} (h : front = [] ∨ front.getLast? = some lineFeed) :
    (decodeLossy front = [] ∨ (decodeLossy front).getLast? = some '\n') ∧
      ∀ rest, decodeLossy (front ++ rest) = decodeLossy front ++ decodeLossy rest := by
  rcases h with rfl | h
  · exact ⟨.inl rfl, fun _ => rfl⟩
  · obtain ⟨earlier, rfl⟩ := List.getLast?_eq_some_iff.mp h
    have hfront : decodeLossy (earlier ++ [lineFeed]) = decodeLossy earlier ++ ['\n'] :=
      decodeLossy_lineFeed earlier []
    refine ⟨.inr ?_, fun rest => ?_⟩
    · rw [hfront, List.getLast?_concat]
    · rw [hfront, List.append_assoc, List.singleton_append, decodeLossy_lineFeed,
        List.append_assoc, List.singleton_append]

/-- What the end of a line begins is decoded apart from that line. -/
theorem decodeLossy_ending {back : Bytes} (h : back = [] ∨ back.head? = some lineFeed) :
    (decodeLossy back = [] ∨ (decodeLossy back).head? = some '\n') ∧
      ∀ line, decodeLossy (line ++ back) = decodeLossy line ++ decodeLossy back := by
  rcases h with rfl | h
  · refine ⟨.inl rfl, fun line => ?_⟩
    rw [List.append_nil]
    exact (List.append_nil _).symm
  · obtain ⟨later, rfl⟩ := List.head?_eq_some_iff.mp h
    refine ⟨.inr ?_, fun line => ?_⟩
    · rw [decodeLossy_cons_lineFeed, List.head?_cons]
    · rw [decodeLossy_lineFeed, decodeLossy_cons_lineFeed]

/-! ### No other bytes stand for a line feed -/

theorem ofNat_ne_lineFeed {n : Nat} (h : n ≠ 10) : Char.ofNat n ≠ '\n' := by
  intro hc
  by_cases hvalid : n.isValidChar
  · rw [Char.ofNat, dif_pos hvalid] at hc
    exact h (congrArg Char.toNat hc)
  · -- The number of no character stands for the null character.
    rw [Char.ofNat, dif_neg hvalid] at hc
    cases hc

theorem eq_lineFeed_of_begin {b : UInt8} (h : some '\n' ∈ (begin b).2) : b = lineFeed := by
  by_cases hb : b.toNat = 10
  · exact UInt8.toNat_inj.mp hb
  · have hne := ofNat_ne_lineFeed hb
    simp only [begin] at h
    repeat' split at h
    all_goals simp [Ne.symm hne] at h

theorem Place.Wide.eq_lineFeed_of_step {place : Place} (h : place.Wide) {b : UInt8}
    (hmem : some '\n' ∈ (Utf8.step place b).2) : b = lineFeed := by
  cases place with
  | boundary => exact eq_lineFeed_of_begin hmem
  | inside missing low high value =>
    obtain ⟨-, -, hwide⟩ := h
    simp only [Utf8.step] at hmem
    split at hmem
    · next hb =>
      have hle : low.toNat ≤ b.toNat := hb.1
      split at hmem
      · next hmissing =>
        have hleast := hwide hmissing
        have hne : Char.ofNat (value * 64 + (b.toNat - 0x80)) ≠ '\n' :=
          ofNat_ne_lineFeed (by omega)
        simp [Ne.symm hne] at hmem
      · simp at hmem
    · exact eq_lineFeed_of_begin (by simpa using hmem)

theorem mem_finish_iff {d : Decoder} {c : Char} : some c ∈ d.finish ↔ some c ∈ d.pieces := by
  obtain ⟨place, ended⟩ := d
  cases place <;> simp [Decoder.finish]

theorem lineFeed_mem_of_foldl_push {d : Decoder} (h : d.place.Wide) {bytes : Bytes}
    (hmem : some '\n' ∈ (bytes.foldl Decoder.push d).pieces) :
    some '\n' ∈ d.pieces ∨ lineFeed ∈ bytes := by
  induction bytes generalizing d with
  | nil => exact .inl hmem
  | cons b bytes ih =>
    rcases ih (h.step b) hmem with hread | hlater
    · rcases List.mem_append.mp hread with hnow | hbefore
      · have hb := h.eq_lineFeed_of_step (List.mem_reverse.mp hnow)
        exact .inr (hb ▸ List.mem_cons_self)
      · exact .inl hbefore
    · exact .inr (List.mem_cons_of_mem b hlater)

theorem lineFeed_mem_iff {bytes : Bytes} : '\n' ∈ decodeLossy bytes ↔ lineFeed ∈ bytes := by
  constructor
  · intro h
    obtain ⟨piece, hpiece, hchar⟩ := List.mem_map.mp h
    cases piece with
    | none => exact absurd hchar (by decide)
    | some c =>
      obtain rfl : c = '\n' := hchar
      have hread := lineFeed_mem_of_foldl_push wide_start (mem_finish_iff.mp hpiece)
      exact hread.resolve_left List.not_mem_nil
  · intro h
    obtain ⟨a, b, rfl⟩ := List.append_of_mem h
    rw [decodeLossy_lineFeed]
    simp

end CheckerAudit.Text.Utf8
