import CheckerAudit.Salt.Draw

/-!
Draws from a stream of words that never ends. The loop takes one word after the other until it
accepts one, so a draw is a finite stretch of the stream, if there is one.
-/
namespace CheckerAudit.Salt

/-- The words of a list with zeros behind them. -/
def withZeros (words : List UInt32) (i : Nat) : UInt32 :=
  words.getD i 0

/-- The product of a word and the number of salts, in two halves of 32 bits. -/
structure Halves (w : UInt32) (high low : Nat) : Prop where
  product : w.toNat * 2147483647 = high * 4294967296 + low
  low_lt : low < 4294967296

/-- A draw from position `i` on ends before position `j` with a salt. A word is accepted by the low
half of its product, and the high half tells the salt. -/
inductive Draws (stream : Nat → UInt32) : Nat → Salt → Nat → Prop where
  | accepted {i high low : Nat} {s : Salt} (halves : Halves (stream i) high low)
    (accepts : low ≤ 4294967293) (picks : s.toNat = 1 + high) : Draws stream i s (i + 1)
  | refused {i j high low : Nat} {s : Salt} (halves : Halves (stream i) high low)
    (refuses : 4294967293 < low) (later : Draws stream (i + 1) s j) : Draws stream i s j

/-- Draws one after the other. -/
inductive DrawsAll (stream : Nat → UInt32) : Nat → List Salt → Nat → Prop where
  | none {i : Nat} : DrawsAll stream i [] i
  | more {i j k : Nat} {s : Salt} {salts : List Salt} (first : Draws stream i s j)
    (others : DrawsAll stream j salts k) : DrawsAll stream i (s :: salts) k

/-- The words of a stretch of a stream. -/
def stretch (stream : Nat → UInt32) (i j : Nat) : List UInt32 :=
  (List.range' i (j - i)).map stream

end CheckerAudit.Salt
