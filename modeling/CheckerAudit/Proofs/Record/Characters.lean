import CheckerAudit.Proofs.Catalog.Accounting
import CheckerAudit.Proofs.Record.Numbering
import CheckerAudit.Proofs.Secret
import Mathlib.Data.List.Forall2

/-!
# No character is cut

The reader of bytes and the reader of characters find the same records of a text, one by one. Every
field found in the bytes is the bytes of the field found in the characters, and the same line feeds
stand before both. So no field is refused, and neither a config nor a catalog is malformed.
-/
namespace CheckerAudit.Record

/-- What is found in the bytes of a text is what is found in its characters. Each field is the bytes
of a text, that text is the field of the characters, and the line feeds before the two are as
many. -/
structure SameRecord (source : List Char) (inBytes : Found UInt8) (inChars : Found Char) : Prop where
  start : inBytes.start = (Text.Utf8.encode (source.take inChars.start)).length
  fields : List.Forall₂
    (fun bytes field => bytes.toByteArray.IsValidUTF8 ∧ Text.Utf8.decode? bytes = some field)
    inBytes.fields inChars.fields
  lineFeeds : ((Text.Utf8.encode source).take inBytes.start).count Alphabet.lineFeed =
    (source.take inChars.start).count Alphabet.lineFeed
  line : lineAt (Text.Utf8.encode source).toArray inBytes.start =
    lineAt source.toArray inChars.start

theorem take_encode (source : List Char) (n : Nat) :
    (Text.Utf8.encode source).take (byteOffset source n) = Text.Utf8.encode (source.take n) := by
  rw [← List.take_append_drop n source, Text.Utf8.encode_append, byteOffset,
    List.take_append_drop, List.take_left]

theorem sameRecord_encoded (source : List Char) (found : Found Char) :
    SameRecord source (found.encoded source) found where
  start := rfl
  fields := by
    rw [Found.encoded, List.forall₂_map_left_iff, List.forall₂_same]
    exact fun field _ => ⟨.intro field rfl, Text.Utf8.decode?_encode field⟩
  lineFeeds := by rw [Found.encoded, take_encode, count_encode]
  line := lineAt_encode source found.start

/-- Both readers find the same records, in the same order. -/
theorem scan_sameRecord (source : List Char) :
    List.Forall₂ (SameRecord source) (scan (Text.Utf8.encode source)) (scan source) := by
  rw [scan_encode, List.forall₂_map_left_iff, List.forall₂_same]
  exact fun found _ => sameRecord_encoded source found

/-- A counter that moves through the bytes gives the lines that one gives that moves through the
characters. -/
theorem lines_encode (source : List Char) :
    LineCounter.lines ⟨(Text.Utf8.encode source).toArray, 0, 1⟩
        ((scan (Text.Utf8.encode source)).map Found.start) =
      LineCounter.lines ⟨source.toArray, 0, 1⟩ ((scan source).map Found.start) := by
  rw [lines_scan, lines_scan, foundLines_encode]

/-- Reading the bytes of a text never cuts a character: it finds what reading the characters finds,
record by record and field by field, and counts the same line feeds. So reading always gives the
records of the characters, and no config or catalog is refused as malformed. -/
theorem bytes_read_as_characters (source path : String) :
    let bytes := Text.Utf8.encode source.toList
    List.Forall₂ (SameRecord source.toList) (scan bytes) (scan source.toList) ∧
      LineCounter.lines ⟨bytes.toArray, 0, 1⟩ ((scan bytes).map Found.start) =
        LineCounter.lines ⟨source.toList.toArray, 0, 1⟩
          ((scan source.toList).map Found.start) ∧
      Record.read source = .ok (Record.ofChars source.toList) ∧
      (∀ file cause, (Secret.parse source path).value ≠ .error (.malformed file cause)) ∧
      ∀ file cause, (Catalog.parse source path).value ≠ .error (.malformed file cause) := by
  intro bytes
  refine ⟨scan_sameRecord source.toList, lines_encode source.toList, read_eq_ofChars source,
    fun file cause hmalformed => ?_, fun file cause hmalformed => ?_⟩
  · rcases Secret.value_parse_cases source path with ⟨found, hfound⟩ | hmissing
    · rw [hfound] at hmalformed
      cases hmalformed
    · rw [hmissing] at hmalformed
      cases hmalformed
  · rcases Catalog.value_parse_cases path source with
      ⟨cases, hcases⟩ | ⟨line, value, fault, hrefused⟩
    · rw [hcases] at hmalformed
      cases hmalformed
    · rw [hrefused] at hmalformed
      cases hmalformed

end CheckerAudit.Record
