import CheckerAudit.Proofs.Record.Reading
import CheckerAudit.Proofs.Text.Utf8
import CheckerAudit.Record.Basic

/-!
# Reading bytes is reading characters

The four symbols and every other character below 128 are one byte each; the bytes of all other
characters mean nothing to a reader. So a reader of the bytes of a text moves along with a reader of
its characters: it stands at the same place, holds the bytes of the same fields, and finds the same
records. No field is cut inside a character, and every field is a text again.
-/
namespace CheckerAudit.Record

open Text (Bytes)

/-! ### Symbols without a meaning -/

section Ordinary

variable {α : Type} [DecidableEq α] [Alphabet α]

def Ordinary (a : α) : Prop :=
  a ≠ Alphabet.quote ∧ ¬EndsField a

theorem ordinary_iff {a : α} : Ordinary a ↔ a ≠ Alphabet.delimiter ∧ a ≠ Alphabet.quote ∧
    a ≠ Alphabet.carriageReturn ∧ a ≠ Alphabet.lineFeed := by
  unfold Ordinary
  rw [not_endsField_iff]
  simp only [isTerminator, Bool.or_eq_false_iff, decide_eq_false_iff_not]
  constructor
  · rintro ⟨hquote, hdelimiter, hcarriage, hfeed⟩
    exact ⟨hdelimiter, hquote, hcarriage, hfeed⟩
  · rintro ⟨hdelimiter, hquote, hcarriage, hfeed⟩
    exact ⟨hquote, hdelimiter, hcarriage, hfeed⟩

/-- Where a reader stands after a symbol that it keeps for no other reason than its place. -/
def Place.keeping : Place → Place
  | .quoted => .quoted
  | _ => .bare

theorem Reader.step_ordinary (r : Reader α) {a : α} (h : Ordinary a) :
    r.step a = (r.keep r.place.keeping a, none) := by
  obtain ⟨hquote, hends⟩ := h
  obtain ⟨hdelimiter, hterminator⟩ := not_endsField_iff.mp hends
  obtain ⟨position, start, place, field, fields⟩ := r
  cases place with
  | quoted => exact step_quoted rfl hquote
  | bare => exact step_bare rfl hends
  | between => simp [step, opening, plain, hquote, hdelimiter, hterminator, Place.keeping]
  | fieldStart => simp [step, opening, plain, hquote, hdelimiter, hterminator, Place.keeping]
  | quoteSeen => simp [step, plain, hquote, hdelimiter, hterminator, Place.keeping]

/-- One or more such symbols are kept together. -/
theorem Reader.readFrom_ordinary (r : Reader α) {part : List α} (hne : part ≠ [])
    (h : ∀ a ∈ part, Ordinary a) (rest : List α) :
    r.readFrom (part ++ rest) =
      readFrom ⟨r.position + part.length, r.start, r.place.keeping, part.reverse ++ r.field,
        r.fields⟩ rest := by
  induction part generalizing r with
  | nil => exact absurd rfl hne
  | cons a part ih =>
    rw [List.cons_append, readFrom_cons_none (r.step_ordinary (h a List.mem_cons_self))]
    by_cases hlast : part = []
    · subst hlast
      rfl
    · have hkeeping : r.place.keeping.keeping = r.place.keeping := by cases r.place <;> rfl
      have hposition : r.position + (a :: part).length = r.position + 1 + part.length := by
        rw [List.length_cons]
        omega
      rw [ih (r.keep r.place.keeping a) hlast fun b hb => h b (List.mem_cons_of_mem a hb),
        hposition, List.reverse_cons, List.append_assoc, List.singleton_append]
      simp only [keep, hkeeping]

end Ordinary

/-! ### One character and its bytes -/

/-- A character and a byte that mean the same to a reader. -/
structure SameSymbol (c : Char) (b : UInt8) : Prop where
  encoded : String.utf8EncodeChar c = [b]
  delimiter : b = Alphabet.delimiter ↔ c = Alphabet.delimiter
  quote : b = Alphabet.quote ↔ c = Alphabet.quote
  terminator : isTerminator b = isTerminator c

/-- A character below 128 and its byte. -/
theorem sameSymbol_ascii {c : Char} (hc : c.val.toNat < 0x80) :
    SameSymbol c (UInt8.ofNat c.val.toNat) := by
  have hbyte : ∀ d : Char, d.val.toNat < 0x80 →
      (UInt8.ofNat c.val.toNat = UInt8.ofNat d.val.toNat ↔ c = d) := by
    intro d hd
    constructor
    · intro h
      have hnat := congrArg UInt8.toNat h
      simp only [UInt8.toNat_ofNat'] at hnat
      exact Char.ext (UInt32.toNat_inj.mp (by omega))
    · rintro rfl
      rfl
  have hcarriage : UInt8.ofNat c.val.toNat = (Alphabet.carriageReturn : UInt8) ↔
      c = (Alphabet.carriageReturn : Char) := hbyte '\r' (by decide)
  have hfeed : UInt8.ofNat c.val.toNat = (Alphabet.lineFeed : UInt8) ↔
      c = (Alphabet.lineFeed : Char) := hbyte '\n' (by decide)
  refine ⟨Text.Utf8.encodeChar_ascii hc, hbyte ':' (by decide), hbyte '"' (by decide), ?_⟩
  rw [isTerminator, isTerminator, decide_eq_decide.mpr hcarriage, decide_eq_decide.mpr hfeed]

theorem ordinary_wide {c : Char} (hc : ¬c.val.toNat < 0x80) :
    Ordinary c ∧ ∀ b ∈ String.utf8EncodeChar c, Ordinary b := by
  constructor
  · refine ordinary_iff.mpr ⟨?_, ?_, ?_, ?_⟩ <;> rintro rfl <;> exact hc (by decide)
  · intro b hb
    have hwide := Text.Utf8.encodeChar_wide hc hb
    refine ordinary_iff.mpr ⟨?_, ?_, ?_, ?_⟩ <;> rintro rfl <;> exact absurd hwide (by decide)

/-! ### A reader of bytes beside a reader of characters -/

/-- The offset in the bytes of a text of its character at `n`. -/
def byteOffset (source : List Char) (n : Nat) : Nat :=
  (Text.Utf8.encode (source.take n)).length

theorem byteOffset_succ {source rest : List Char} {n : Nat} {c : Char}
    (h : source.drop n = c :: rest) :
    byteOffset source (n + 1) = byteOffset source n + (String.utf8EncodeChar c).length := by
  have htake : source.take (n + 1) = source.take n ++ [c] := by
    have hget : source[n]? = some c := by
      rw [← List.head?_drop, h, List.head?_cons]
    rw [List.take_add_one, hget, Option.toList_some]
  rw [byteOffset, htake, Text.Utf8.encode_concat, List.length_append, byteOffset]

/-- What is found in the bytes where a record is found in the characters. -/
def Found.encoded (source : List Char) (found : Found Char) : Found UInt8 :=
  ⟨byteOffset source found.start, found.fields.map Text.Utf8.encode⟩

namespace Reader

/-- The reader of the bytes that goes with a reader of the characters. -/
def encoded (source : List Char) (r : Reader Char) : Reader UInt8 :=
  ⟨byteOffset source r.position, byteOffset source r.start, r.place,
    (Text.Utf8.encode r.field.reverse).reverse, r.fields.map Text.Utf8.encode⟩

theorem encoded_found (source : List Char) (r : Reader Char) :
    (r.encoded source).found = r.found.encoded source := by
  simp only [found, encoded, Found.encoded, List.reverse_reverse, List.map_reverse, List.map_cons]

theorem encoded_finish (source : List Char) (r : Reader Char) :
    (r.encoded source).finish = r.finish.map (Found.encoded source) := by
  have hfound := r.encoded_found source
  obtain ⟨position, start, place, field, fields⟩ := r
  cases place with
  | between => rfl
  | fieldStart => exact congrArg (fun found => [found]) hfound
  | bare => exact congrArg (fun found => [found]) hfound
  | quoted => exact congrArg (fun found => [found]) hfound
  | quoteSeen => exact congrArg (fun found => [found]) hfound

section Ascii

variable {source : List Char} {r : Reader Char} {c : Char} {b : UInt8}
  (hoffset : byteOffset source (r.position + 1) = byteOffset source r.position + 1)

include hoffset

theorem encoded_skip (place : Place) :
    (r.encoded source).skip place = (r.skip place).encoded source := by
  simp only [skip, encoded, hoffset]

theorem encoded_endField :
    (r.encoded source).endField = r.endField.encoded source := by
  simp only [endField, encoded, hoffset, List.reverse_reverse, List.map_cons]
  rfl

theorem encoded_endRecord :
    (r.encoded source).endRecord = r.endRecord.encoded source := by
  simp only [endRecord, encoded, hoffset]
  rfl

variable (hb : SameSymbol c b)

include hb

theorem encoded_keep (place : Place) :
    (r.encoded source).keep place b = (r.keep place c).encoded source := by
  have hfield : Text.Utf8.encode (c :: r.field).reverse =
      Text.Utf8.encode r.field.reverse ++ [b] := by
    rw [List.reverse_cons, Text.Utf8.encode_concat, hb.encoded]
  simp only [keep, encoded, hoffset, hfield, List.reverse_append]
  rfl

theorem encoded_plain :
    (r.encoded source).plain b =
      ((r.plain c).1.encoded source, (r.plain c).2.map (Found.encoded source)) := by
  unfold plain
  by_cases hdelimiter : c = Alphabet.delimiter
  · rw [if_pos hdelimiter, if_pos (hb.delimiter.mpr hdelimiter), encoded_endField hoffset]
    rfl
  rw [if_neg hdelimiter, if_neg (mt hb.delimiter.mp hdelimiter), hb.terminator]
  by_cases hterminator : isTerminator c = true
  · rw [if_pos hterminator, if_pos hterminator, encoded_endRecord hoffset, encoded_found]
    rfl
  · rw [if_neg hterminator, if_neg hterminator, encoded_keep hoffset hb]
    rfl

theorem encoded_opening :
    (r.encoded source).opening b =
      ((r.opening c).1.encoded source, (r.opening c).2.map (Found.encoded source)) := by
  unfold opening
  by_cases hquote : c = Alphabet.quote
  · rw [if_pos hquote, if_pos (hb.quote.mpr hquote), encoded_skip hoffset]
    rfl
  · rw [if_neg hquote, if_neg (mt hb.quote.mp hquote), encoded_plain hoffset hb]

/-- Over a character of one byte both readers do the same. -/
theorem encoded_step :
    (r.encoded source).step b =
      ((r.step c).1.encoded source, (r.step c).2.map (Found.encoded source)) := by
  have hplace : (r.encoded source).place = r.place := rfl
  cases hr : r.place with
  | between =>
    simp only [step, hplace, hr, hb.terminator]
    by_cases hterminator : isTerminator c = true
    · rw [if_pos hterminator, if_pos hterminator, encoded_skip hoffset]
      rfl
    · rw [if_neg hterminator, if_neg hterminator, encoded_opening hoffset hb]
  | fieldStart =>
    simp only [step, hplace, hr]
    exact encoded_opening hoffset hb
  | bare =>
    simp only [step, hplace, hr]
    exact encoded_plain hoffset hb
  | quoted =>
    simp only [step, hplace, hr]
    by_cases hquote : c = Alphabet.quote
    · rw [if_pos hquote, if_pos (hb.quote.mpr hquote), encoded_skip hoffset]
      rfl
    · rw [if_neg hquote, if_neg (mt hb.quote.mp hquote), encoded_keep hoffset hb]
      rfl
  | quoteSeen =>
    simp only [step, hplace, hr]
    by_cases hquote : c = Alphabet.quote
    · rw [if_pos hquote, if_pos (hb.quote.mpr hquote), encoded_keep hoffset hb]
      rfl
    · rw [if_neg hquote, if_neg (mt hb.quote.mp hquote), encoded_plain hoffset hb]

end Ascii

theorem encoded_wide {source : List Char} {r : Reader Char} {c : Char} (hc : ¬c.val.toNat < 0x80)
    (hoffset : byteOffset source (r.position + 1) =
      byteOffset source r.position + (String.utf8EncodeChar c).length) (bytes : Bytes) :
    (r.encoded source).readFrom (String.utf8EncodeChar c ++ bytes) =
      ((r.keep r.place.keeping c).encoded source).readFrom bytes := by
  have hfield : Text.Utf8.encode (c :: r.field).reverse =
      Text.Utf8.encode r.field.reverse ++ String.utf8EncodeChar c := by
    rw [List.reverse_cons, Text.Utf8.encode_concat]
  rw [readFrom_ordinary _ String.utf8EncodeChar_ne_nil (ordinary_wide hc).2]
  simp only [keep, encoded, hoffset, hfield, List.reverse_append]

section Position

variable {α : Type} [DecidableEq α] [Alphabet α]

theorem plain_position (r : Reader α) (a : α) : (r.plain a).1.position = r.position + 1 := by
  unfold plain
  by_cases hdelimiter : a = Alphabet.delimiter
  · rw [if_pos hdelimiter, endField]
  rw [if_neg hdelimiter]
  by_cases hterminator : isTerminator a = true
  · rw [if_pos hterminator, endRecord]
  · rw [if_neg hterminator, keep]

theorem opening_position (r : Reader α) (a : α) : (r.opening a).1.position = r.position + 1 := by
  unfold opening
  by_cases hquote : a = Alphabet.quote
  · rw [if_pos hquote, skip]
  · rw [if_neg hquote, plain_position]

/-- Every symbol moves a reader on by one. -/
theorem step_position (r : Reader α) (a : α) : (r.step a).1.position = r.position + 1 := by
  cases hplace : r.place with
  | between =>
    simp only [step, hplace]
    by_cases hterminator : isTerminator a = true
    · rw [if_pos hterminator, skip]
    · rw [if_neg hterminator, opening_position]
  | fieldStart =>
    simp only [step, hplace, opening_position]
  | bare =>
    simp only [step, hplace, plain_position]
  | quoted =>
    simp only [step, hplace]
    by_cases hquote : a = Alphabet.quote
    · rw [if_pos hquote, skip]
    · rw [if_neg hquote, keep]
  | quoteSeen =>
    simp only [step, hplace]
    by_cases hquote : a = Alphabet.quote
    · rw [if_pos hquote, keep]
    · rw [if_neg hquote, plain_position]

end Position

/-- The reader of the bytes finds what the reader of the characters finds. -/
theorem readFrom_encode {source rest : List Char} {r : Reader Char}
    (h : source.drop r.position = rest) :
    (r.encoded source).readFrom (Text.Utf8.encode rest) =
      (r.readFrom rest).map (Found.encoded source) := by
  induction rest generalizing r with
  | nil => exact r.encoded_finish source
  | cons c rest ih =>
    have hoffset := byteOffset_succ h
    have hrest : source.drop (r.step c).1.position = rest := by
      rw [step_position, ← List.drop_drop, h, List.drop_one, List.tail_cons]
    rw [Text.Utf8.encode_cons]
    -- A character of one byte is one step of each reader; the bytes of any other are kept.
    by_cases hc : c.val.toNat < 0x80
    · have hb := sameSymbol_ascii hc
      rw [hb.encoded] at hoffset ⊢
      have hstep := encoded_step hoffset hb
      rw [List.singleton_append]
      rcases hnext : r.step c with ⟨next, _ | record⟩
      · rw [hnext] at hstep hrest
        rw [readFrom_cons_none hstep, readFrom_cons_none hnext, ih hrest]
      · rw [hnext] at hstep hrest
        rw [readFrom_cons_some hstep, readFrom_cons_some hnext, ih hrest, List.map_cons]
    · rw [encoded_wide hc hoffset]
      have hstep := r.step_ordinary (ordinary_wide hc).1
      rw [hstep] at hrest
      rw [ih hrest, readFrom_cons_none hstep]

end Reader

/-! ### Records of a text -/

theorem mark_encoded : (Alphabet.mark : List UInt8) = Text.Utf8.encode Alphabet.mark := by
  decide

/-- The bytes of a text begin with the mark where its characters do. -/
theorem mark_startsWith (source : List Char) :
    (Alphabet.mark : List UInt8).isPrefixOf (Text.Utf8.encode source) =
      (Alphabet.mark : List Char).isPrefixOf source := by
  rw [Bool.eq_iff_iff, List.isPrefixOf_iff_prefix, List.isPrefixOf_iff_prefix, mark_encoded,
    Text.Utf8.encode_startsWith]

theorem not_mark_of_head {source : List Char} (h : source.head? ≠ some '\uFEFF') :
    (Alphabet.mark : List Char).isPrefixOf source = false := by
  cases source with
  | nil => rfl
  | cons c source =>
    have hc : '\uFEFF' ≠ c := fun heq => h (by rw [heq]; rfl)
    change ('\uFEFF' == c && List.isPrefixOf [] source) = false
    rw [beq_false_of_ne hc, Bool.false_and]

theorem scan_encode (source : List Char) :
    scan (Text.Utf8.encode source) = (scan source).map (Found.encoded source) := by
  rw [scan_eq, scan_eq]
  unfold unmarked markWidth
  rw [mark_startsWith]
  by_cases hmark : (Alphabet.mark : List Char).isPrefixOf source
  · rw [if_pos hmark, if_pos hmark, if_pos hmark, if_pos hmark]
    obtain ⟨rest, rfl⟩ := List.isPrefixOf_iff_prefix.mp hmark
    have hoffset : byteOffset (Alphabet.mark ++ rest) (Alphabet.mark : List Char).length =
        (Text.Utf8.encode Alphabet.mark).length := by
      rw [byteOffset, List.take_left]
    have hread : (Reader.encoded (Alphabet.mark ++ rest)
          { position := (Alphabet.mark : List Char).length }).readFrom (Text.Utf8.encode rest) =
        (Reader.readFrom { position := (Alphabet.mark : List Char).length } rest).map
          (Found.encoded (Alphabet.mark ++ rest)) := Reader.readFrom_encode List.drop_left
    rw [Text.Utf8.encode_append, mark_encoded, List.drop_left, List.drop_left, ← hoffset]
    exact hread
  · rw [if_neg hmark, if_neg hmark, if_neg hmark, if_neg hmark]
    exact Reader.readFrom_encode (r := {}) rfl

theorem decodeFields_encode (line index : Nat) (fields : List (List Char)) :
    decodeFields line index (fields.map Text.Utf8.encode) = .ok (fields.map String.ofList) := by
  induction fields generalizing index with
  | nil => rfl
  | cons field fields ih =>
    rw [List.map_cons, decodeFields, Text.Utf8.decode?_encode]
    simp only [ih (index + 1), Except.map, List.map_cons]

/-- Decoding fails nowhere, and gives the fields of the characters on the lines that are counted. -/
theorem decodeFrom_encoded (source : List Char) (founds : List (Found Char))
    (counter : LineCounter UInt8) :
    ∃ records, decodeFrom counter (founds.map (Found.encoded source)) = .ok records ∧
      records.map Record.line =
        counter.lines (founds.map fun found => byteOffset source found.start) ∧
      records.map Record.fields = founds.map fun found => found.fields.map String.ofList := by
  induction founds generalizing counter with
  | nil => exact ⟨[], rfl, rfl, rfl⟩
  | cons found founds ih =>
    obtain ⟨records, hrecords, hlines, hfields⟩ := ih (counter.seek (byteOffset source found.start))
    refine ⟨⟨(counter.seek (byteOffset source found.start)).line,
      found.fields.map String.ofList⟩ :: records, ?_, ?_, ?_⟩
    · simp only [List.map_cons, decodeFrom, Found.encoded, decodeFields_encode]
      rw [hrecords]
      rfl
    · rw [List.map_cons, hlines]
      rfl
    · rw [List.map_cons, hfields]
      rfl

end CheckerAudit.Record
