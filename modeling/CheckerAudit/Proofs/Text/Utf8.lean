import CheckerAudit.Text.Utf8

/-!
# Encoded text is decoded again

A decoder that stands between two characters reads the bytes of a character to that character and
stands between two characters again, whatever it has read before. So encoded text decodes to itself,
strictly and lossily, and what follows it is decoded on its own.
-/
namespace CheckerAudit.Text.Utf8

/-- The first of two bytes holds the upper five bits. -/
theorem step_two {a : Nat} (hlow : 2 ≤ a) (hhigh : a < 0x20) :
    step .boundary (UInt8.ofNat (a + 0xC0)) = (.inside 1 0x80 0xBF a, []) := by
  have hn : (UInt8.ofNat (a + 0xC0)).toNat = a + 0xC0 := by simp; omega
  simp only [step, begin, hn]
  rw [if_neg (by omega), if_neg (by omega), if_pos (by omega), Nat.add_sub_cancel]

/-- The first of three bytes holds the upper four bits. Its bounds admit every second byte that leads
neither to an overlong form nor to a surrogate. -/
theorem step_three {a m : Nat} (ha : a < 0x10) (hm : m < 0x40) (hlong : a = 0 → 0x20 ≤ m)
    (hsurrogate : a = 0xD → m < 0x20) :
    ∃ low high : UInt8, step .boundary (UInt8.ofNat (a + 0xE0)) = (.inside 2 low high a, []) ∧
      low.toNat ≤ m + 0x80 ∧ m + 0x80 ≤ high.toNat := by
  have hn : (UInt8.ofNat (a + 0xE0)).toNat = a + 0xE0 := by simp; omega
  simp only [step, begin, hn]
  rw [if_neg (by omega), if_neg (by omega), if_neg (by omega)]
  by_cases h0 : a = 0
  · subst h0
    have hm' := hlong rfl
    exact ⟨0xA0, 0xBF, by simp, by simp; omega, by simp; omega⟩
  by_cases hD : a = 0xD
  · subst hD
    have hm' := hsurrogate rfl
    exact ⟨0x80, 0x9F, by simp, by simp, by simp; omega⟩
  · refine ⟨0x80, 0xBF, ?_, by simp, by simp; omega⟩
    rw [if_neg (by omega), if_neg (by omega), if_pos (by omega), Nat.add_sub_cancel]

/-- The first of four bytes holds the upper three bits. Its bounds admit every second byte that leads
neither to an overlong form nor beyond the last character. -/
theorem step_four {a m : Nat} (ha : a ≤ 4) (hm : m < 0x40) (hlong : a = 0 → 0x10 ≤ m)
    (hlast : a = 4 → m < 0x10) :
    ∃ low high : UInt8, step .boundary (UInt8.ofNat (a + 0xF0)) = (.inside 3 low high a, []) ∧
      low.toNat ≤ m + 0x80 ∧ m + 0x80 ≤ high.toNat := by
  have hn : (UInt8.ofNat (a + 0xF0)).toNat = a + 0xF0 := by simp; omega
  simp only [step, begin, hn]
  rw [if_neg (by omega), if_neg (by omega), if_neg (by omega), if_neg (by omega),
    if_neg (by omega), if_neg (by omega)]
  by_cases h0 : a = 0
  · subst h0
    have hm' := hlong rfl
    exact ⟨0x90, 0xBF, by simp, by simp; omega, by simp; omega⟩
  by_cases h4 : a = 4
  · subst h4
    have hm' := hlast rfl
    exact ⟨0x80, 0x8F, by simp, by simp, by simp; omega⟩
  · refine ⟨0x80, 0xBF, ?_, by simp, by simp; omega⟩
    rw [if_neg (by omega), if_pos (by omega), Nat.add_sub_cancel]

/-- A byte between the bounds that is not the last adds its six bits. -/
theorem step_inside {missing value m : Nat} {low high : UInt8} (hm : m < 0x40)
    (hlow : low.toNat ≤ m + 0x80) (hhigh : m + 0x80 ≤ high.toNat) :
    step (.inside (missing + 2) low high value) (UInt8.ofNat (m + 0x80)) =
      (.inside (missing + 1) 0x80 0xBF (value * 64 + m), []) := by
  have hn : (UInt8.ofNat (m + 0x80)).toNat = m + 0x80 := by simp; omega
  simp only [step, UInt8.le_iff_toNat_le, hn]
  rw [if_pos ⟨hlow, hhigh⟩, if_neg (by omega), Nat.add_sub_cancel]
  rfl

theorem step_last {value m : Nat} (hm : m < 0x40) :
    step (.inside 1 0x80 0xBF value) (UInt8.ofNat (m + 0x80)) =
      (.boundary, [some (Char.ofNat (value * 64 + m))]) := by
  have hn : (UInt8.ofNat (m + 0x80)).toNat = m + 0x80 := by simp; omega
  simp only [step, UInt8.le_iff_toNat_le, hn]
  rw [if_pos ⟨by simp, by simp; omega⟩, if_pos (Nat.le_refl 1), Nat.add_sub_cancel]

theorem foldl_push_cons {place next : Place} {b : UInt8} {ended before : List (Option Char)}
    (h : step place b = (next, ended)) (bytes : Bytes) :
    (b :: bytes).foldl Decoder.push ⟨place, before⟩ =
      bytes.foldl Decoder.push ⟨next, ended.reverse ++ before⟩ := by
  rw [List.foldl_cons, Decoder.push, h]

/-- The bytes of a character are read to it, whatever came before them. -/
theorem foldl_push_encodeChar (c : Char) (before : List (Option Char)) :
    (String.utf8EncodeChar c).foldl Decoder.push ⟨.boundary, before⟩ =
      ⟨.boundary, some c :: before⟩ := by
  have hc : Char.ofNat c.val.toNat = c := Char.ofNat_toNat c
  have hvalid : c.val.toNat < 0xD800 ∨ 0xDFFF < c.val.toNat ∧ c.val.toNat < 0x110000 := c.valid
  generalize hv : c.val.toNat = v at hc hvalid
  simp only [String.utf8EncodeChar, hv]
  by_cases h1 : v ≤ 0x7F
  · have hn : (UInt8.ofNat v).toNat = v := by simp; omega
    have hfirst : step .boundary (UInt8.ofNat v) = (.boundary, [some c]) := by
      simp only [step, begin, hn]
      rw [if_pos (by omega), hc]
    rw [if_pos h1, foldl_push_cons hfirst]
    rfl
  have hlast : v % 0x40 < 0x40 := Nat.mod_lt _ (by omega)
  by_cases h2 : v ≤ 0x7FF
  · have hfirst : step .boundary (UInt8.ofNat (v / 64 % 0x20 + 0xC0)) =
        (.inside 1 0x80 0xBF (v / 64 % 0x20), []) := step_two (by omega) (by omega)
    have hvalue : v / 64 % 0x20 * 64 + v % 0x40 = v := by omega
    rw [if_neg h1, if_pos h2, foldl_push_cons hfirst, foldl_push_cons (step_last hlast), hvalue,
      hc]
    rfl
  have hmiddle : v / 64 % 0x40 < 0x40 := Nat.mod_lt _ (by omega)
  by_cases h3 : v ≤ 0xFFFF
  · obtain ⟨low, high, hfirst, hlow, hhigh⟩ :=
      step_three (a := v / 4096 % 0x10) (m := v / 64 % 0x40)
        (by omega) (by omega) (by omega) (by omega)
    have hvalue : (v / 4096 % 0x10 * 64 + v / 64 % 0x40) * 64 + v % 0x40 = v := by omega
    rw [if_neg h1, if_neg h2, if_pos h3, foldl_push_cons hfirst,
      foldl_push_cons (step_inside hmiddle hlow hhigh), foldl_push_cons (step_last hlast),
      hvalue, hc]
    rfl
  · have hupper : v / 4096 % 0x40 < 0x40 := Nat.mod_lt _ (by omega)
    obtain ⟨low, high, hfirst, hlow, hhigh⟩ :=
      step_four (a := v / 262144 % 8) (m := v / 4096 % 0x40)
        (by omega) (by omega) (by omega) (by omega)
    have hvalue : ((v / 262144 % 8 * 64 + v / 4096 % 0x40) * 64 + v / 64 % 0x40) * 64 + v % 0x40 =
        v := by omega
    rw [if_neg h1, if_neg h2, if_neg h3, foldl_push_cons hfirst,
      foldl_push_cons (step_inside hupper hlow hhigh),
      foldl_push_cons (step_inside hmiddle (by simp) (by simp; omega)),
      foldl_push_cons (step_last hlast), hvalue, hc]
    rfl

@[simp] theorem encode_cons (c : Char) (text : List Char) :
    encode (c :: text) = String.utf8EncodeChar c ++ encode text := by
  rw [encode, List.flatMap_cons, encode]

theorem encode_concat (text : List Char) (c : Char) :
    encode (text ++ [c]) = encode text ++ String.utf8EncodeChar c := by
  simp [encode]

@[simp] theorem encode_append (first rest : List Char) :
    encode (first ++ rest) = encode first ++ encode rest := by
  rw [encode, List.flatMap_append, encode, encode]

theorem foldl_push_encode (text : List Char) (before : List (Option Char)) :
    (encode text).foldl Decoder.push ⟨.boundary, before⟩ =
      ⟨.boundary, (text.map some).reverse ++ before⟩ := by
  induction text generalizing before with
  | nil => rfl
  | cons c text ih =>
    rw [encode_cons, List.foldl_append, foldl_push_encodeChar, ih, List.map_cons,
      List.reverse_cons, List.append_assoc, List.singleton_append]

theorem pieces_encode (text : List Char) : pieces (encode text) = text.map some := by
  rw [pieces, foldl_push_encode, Decoder.finish, List.append_nil, List.reverse_reverse]

/-- Strict decoding gives the encoded text back. -/
@[simp] theorem decode?_encode (text : List Char) : decode? (encode text) = some text := by
  have hall : (text.map some).all Option.isSome = true := by
    rw [List.all_map]
    exact List.all_eq_true.mpr fun _ _ => rfl
  rw [decode?, pieces_encode, if_pos hall, List.filterMap_map]
  exact congrArg some List.filterMap_some

@[simp] theorem decodeLossy_encode (text : List Char) : decodeLossy (encode text) = text := by
  rw [decodeLossy, pieces_encode, List.map_map]
  exact List.map_id text

/-- What has been read stays read. -/
theorem pieces_foldl_push (bytes : Bytes) (d : Decoder) :
    ∃ ended, (bytes.foldl Decoder.push d).pieces = ended ++ d.pieces := by
  induction bytes generalizing d with
  | nil => exact ⟨[], rfl⟩
  | cons b bytes ih =>
    obtain ⟨ended, hended⟩ := ih (d.push b)
    refine ⟨ended ++ (step d.place b).2.reverse, ?_⟩
    rw [List.foldl_cons, hended, Decoder.push, List.append_assoc]

/-- Bytes that start like those of a text are those of a text that starts like it. -/
theorem encode_startsWith {first second : List Char} :
    encode first <+: encode second ↔ first <+: second := by
  constructor
  · rintro ⟨rest, hrest⟩
    have hread := foldl_push_encode second []
    rw [← hrest, List.foldl_append, foldl_push_encode, List.append_nil, List.append_nil] at hread
    obtain ⟨ended, hended⟩ := pieces_foldl_push rest ⟨.boundary, (first.map some).reverse⟩
    rw [hread] at hended
    have hmap : second.map some = first.map some ++ ended.reverse := by
      have hreverse := congrArg List.reverse hended
      rwa [List.reverse_append, List.reverse_reverse, List.reverse_reverse] at hreverse
    obtain ⟨start, after, rfl, hstart, _⟩ := List.map_eq_append_iff.mp hmap
    rw [(List.map_inj_right fun _ _ => Option.some.inj).mp hstart]
    exact ⟨after, rfl⟩
  · rintro ⟨rest, rfl⟩
    exact ⟨encode rest, (encode_append first rest).symm⟩

/-! ### Single bytes -/

/-- A character below 128 is one byte. -/
theorem encodeChar_ascii {c : Char} (h : c.val.toNat < 0x80) :
    String.utf8EncodeChar c = [UInt8.ofNat c.val.toNat] := by
  simp only [String.utf8EncodeChar]
  rw [if_pos (by omega)]

/-- The bytes of any other character are no such bytes. -/
theorem encodeChar_wide {c : Char} (h : ¬c.val.toNat < 0x80) {b : UInt8}
    (hb : b ∈ String.utf8EncodeChar c) : 0x80 ≤ b.toNat := by
  have hvalid : c.val.toNat < 0x110000 := by
    have hc : c.val.toNat < 0xD800 ∨ 0xDFFF < c.val.toNat ∧ c.val.toNat < 0x110000 := c.valid
    omega
  generalize hv : c.val.toNat = v at h hvalid
  simp only [String.utf8EncodeChar, hv] at hb
  rw [if_neg (by omega)] at hb
  split at hb
  · simp only [List.mem_cons, List.not_mem_nil, or_false] at hb
    rcases hb with rfl | rfl <;> simp <;> omega
  · split at hb
    · simp only [List.mem_cons, List.not_mem_nil, or_false] at hb
      rcases hb with rfl | rfl | rfl <;> simp <;> omega
    · simp only [List.mem_cons, List.not_mem_nil, or_false] at hb
      rcases hb with rfl | rfl | rfl | rfl <;> simp <;> omega

/-- The byte of a character below 128 stands in the bytes of a text for that character only. -/
theorem mem_encode_ascii {c : Char} (hc : c.val.toNat < 0x80) {text : List Char} :
    UInt8.ofNat c.val.toNat ∈ encode text ↔ c ∈ text := by
  simp only [encode, List.mem_flatMap]
  constructor
  · rintro ⟨d, hd, hbyte⟩
    by_cases hascii : d.val.toNat < 0x80
    · rw [encodeChar_ascii hascii, List.mem_singleton] at hbyte
      have hnat := congrArg UInt8.toNat hbyte
      simp only [UInt8.toNat_ofNat'] at hnat
      obtain rfl : c = d := Char.ext (UInt32.toNat_inj.mp (by omega))
      exact hd
    · have hwide := encodeChar_wide hascii hbyte
      simp only [UInt8.toNat_ofNat'] at hwide
      omega
  · intro h
    exact ⟨c, h, by rw [encodeChar_ascii hc]; exact List.mem_singleton_self _⟩

end CheckerAudit.Text.Utf8
