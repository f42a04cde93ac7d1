/-!
UTF-8: encoding, and decoding that is total on bytes. A maximal run of bytes that begins a
character and cannot go on counts as one broken piece; lossy decoding writes U+FFFD for it, strict
decoding refuses the text.
-/
namespace CheckerAudit.Text

/-- A byte string. -/
abbrev Bytes := List UInt8

namespace Utf8

/-- The bytes of a text. -/
def encode (text : List Char) : Bytes :=
  text.flatMap String.utf8EncodeChar

/-- Where a decoder stands: between characters, or inside one that misses some bytes, the next of
which lies between two bounds. -/
inductive Place where
  | boundary
  | inside (missing : Nat) (low high : UInt8) (value : Nat)
deriving Repr, DecidableEq

/-- What the first byte of a character says. The bounds on the second byte shut out overlong forms,
surrogates and values above U+10FFFF. -/
def begin (b : UInt8) : Place × List (Option Char) :=
  let n := b.toNat
  if n < 0x80 then (.boundary, [some (Char.ofNat n)])
  else if n < 0xC2 then (.boundary, [none])
  else if n < 0xE0 then (.inside 1 0x80 0xBF (n - 0xC0), [])
  else if n = 0xE0 then (.inside 2 0xA0 0xBF 0, [])
  else if n = 0xED then (.inside 2 0x80 0x9F 0x0D, [])
  else if n < 0xF0 then (.inside 2 0x80 0xBF (n - 0xE0), [])
  else if n = 0xF0 then (.inside 3 0x90 0xBF 0, [])
  else if n < 0xF4 then (.inside 3 0x80 0xBF (n - 0xF0), [])
  else if n = 0xF4 then (.inside 3 0x80 0x8F 4, [])
  else (.boundary, [none])

/-- One byte: the next place, and the pieces that end here, `none` for a broken one. A byte that
cannot go on with a character ends it broken and begins the next. -/
def step : Place → UInt8 → Place × List (Option Char)
  | .boundary, b => begin b
  | .inside missing low high value, b =>
    if low ≤ b ∧ b ≤ high then
      let value := value * 64 + (b.toNat - 0x80)
      if missing ≤ 1 then (.boundary, [some (Char.ofNat value)])
      else (.inside (missing - 1) 0x80 0xBF value, [])
    else ((begin b).1, none :: (begin b).2)

/-- A decoder between two bytes; its pieces are held backwards. -/
structure Decoder where
  place : Place := .boundary
  pieces : List (Option Char) := []
deriving Repr, DecidableEq

/-- Takes in one byte. -/
def Decoder.push (d : Decoder) (b : UInt8) : Decoder :=
  ⟨(step d.place b).1, (step d.place b).2.reverse ++ d.pieces⟩

/-- The pieces of a text that ends here; an unfinished character is broken. -/
def Decoder.finish (d : Decoder) : List (Option Char) :=
  match d.place with
  | .boundary => d.pieces.reverse
  | .inside .. => (none :: d.pieces).reverse

/-- The characters of a byte string in order, `none` for each broken piece. -/
def pieces (bytes : Bytes) : List (Option Char) :=
  (bytes.foldl Decoder.push {}).finish

/-- The character written for a broken piece. -/
def replacement : Char := '\uFFFD'

/-- Decoding that writes `replacement` for each broken piece. -/
def decodeLossy (bytes : Bytes) : List Char :=
  (pieces bytes).map (·.getD replacement)

/-- Decoding that refuses a text with a broken piece. -/
def decode? (bytes : Bytes) : Option (List Char) :=
  if (pieces bytes).all Option.isSome then some ((pieces bytes).filterMap id) else none

end Utf8

end CheckerAudit.Text
