/-!
Nonnegative numbers of the form m·2^e with at most 53 bits in m, kept exactly: rounding to the
nearest of them, the fewest decimal digits that read back, and a fixed number of decimal places.
All arithmetic is on natural numbers. Subnormal and infinite values are out of reach here: what is
printed lies between 10^-9 and 2^65.
-/
namespace CheckerAudit.Numeral

/-- The quotient rounded to the nearest integer, a half to the even neighbour. -/
def roundQuotient (num den : Nat) : Nat :=
  let q := num / den
  let r := num % den
  if 2 * r < den then q
  else if den < 2 * r then q + 1
  else if q % 2 = 0 then q else q + 1

/-- A nonnegative rational number. -/
structure Ratio where
  num : Nat
  den : Nat
deriving Repr, DecidableEq

namespace Ratio

/-- The sum of two numbers. -/
def add (a b : Ratio) : Ratio :=
  ⟨a.num * b.den + b.num * a.den, a.den * b.den⟩

/-- Multiplies by a power of a base. -/
def scale (base : Nat) (a : Ratio) : Int → Ratio
  | .ofNat n => ⟨a.num * Nat.pow base n, a.den⟩
  | .negSucc n => ⟨a.num, a.den * Nat.pow base (n + 1)⟩

/-- Whether a number is at most another. -/
def le (a b : Ratio) : Bool :=
  a.num * b.den ≤ b.num * a.den

/-- Whether a number is below another. -/
def lt (a b : Ratio) : Bool :=
  a.num * b.den < b.num * a.den

/-- The distance between two numbers. -/
def dist (a b : Ratio) : Ratio :=
  let x := a.num * b.den
  let y := b.num * a.den
  ⟨(x - y) + (y - x), a.den * b.den⟩

end Ratio

/-- The number `mantissa`·2^`exponent`. Zero has mantissa 0, any other number a mantissa of
exactly 53 bits. -/
structure Binary64 where
  mantissa : Nat
  exponent : Int
deriving Repr, DecidableEq

namespace Binary64

/-- The least mantissa of 53 bits: 2^52. -/
def leastMantissa : Nat := 4503599627370496

/-- The exact value. -/
def ratio (x : Binary64) : Ratio :=
  Ratio.scale 2 ⟨x.mantissa, 1⟩ x.exponent

/-- The nearest number, a tie to the even mantissa. -/
def nearest (a : Ratio) : Binary64 :=
  if a.num = 0 then ⟨0, 0⟩
  else
    let low : Int := (a.num.log2 : Int) - a.den.log2 - 53
    let fits (e : Int) : Bool := (a.scale 2 (-e)).lt ⟨2 * leastMantissa, 1⟩
    let e := if fits low then low else low + 1
    let scaled := a.scale 2 (-e)
    let m := roundQuotient scaled.num scaled.den
    if m = 2 * leastMantissa then ⟨leastMantissa, e + 1⟩ else ⟨m, e⟩

/-- The ends of the interval of numbers that round to `x`. Below a power of two the spacing
halves. -/
def interval (x : Binary64) : Ratio × Ratio :=
  let below := if x.mantissa = leastMantissa then 4 * x.mantissa - 1 else 4 * x.mantissa - 2
  (Ratio.scale 2 ⟨below, 1⟩ (x.exponent - 2), Ratio.scale 2 ⟨4 * x.mantissa + 2, 1⟩ (x.exponent - 2))

/-- A number reads back as `x` when it lies in its interval; the ends belong to an even
mantissa. -/
def readsBack (x : Binary64) (a : Ratio) : Bool :=
  let (low, high) := x.interval
  if x.mantissa % 2 = 0 then low.le a && a.le high else low.lt a && a.lt high

/-- The multiple of 10^`p` nearest to `x` among those that read back, as its multiplier. Of two at
the same distance it is the greater. -/
def onGrid? (x : Binary64) (p : Int) : Option Nat :=
  let v := x.ratio
  let scaled := v.scale 10 (-p)
  let d := scaled.num / scaled.den
  let near (d : Nat) : Ratio := Ratio.scale 10 ⟨d, 1⟩ p
  match x.readsBack (near d), x.readsBack (near (d + 1)) with
  | true, true => if ((near (d + 1)).dist v).le ((near d).dist v) then some (d + 1) else some d
  | true, false => some d
  | false, true => some (d + 1)
  | false, false => none

/-- Decimal grids from the coarsest that can matter to the finest. -/
def grids : List Int :=
  (List.range 64).map fun (i : Nat) => 20 - (i : Int)

/-- The shortest decimal that reads back: the multiplier and the power of ten of the coarsest grid
with one. -/
def shortest (x : Binary64) : Nat × Int :=
  if x.mantissa = 0 then (0, 0)
  else (grids.findSome? fun p => (x.onGrid? p).map (·, p)).getD (0, 0)

end Binary64

/-- The decimal `d`·10^-`places`, positional, with all its places. -/
def withPlaces (d places : Nat) : String :=
  if places = 0 then toString d
  else
    let unit := Nat.pow 10 places
    let digits := (toString (d % unit)).toList
    let zeros := List.replicate (places - digits.length) '0'
    toString (d / unit) ++ "." ++ String.ofList (zeros ++ digits)

/-- The decimal `d`·10^`p`, positional. -/
def positional (d : Nat) : Int → String
  | .ofNat n => toString (d * Nat.pow 10 n)
  | .negSucc n => withPlaces d (n + 1)

/-- The shortest decimal that reads back, positional, an integer without a point. -/
def Binary64.text (x : Binary64) : String :=
  let (d, p) := x.shortest
  positional d p

/-- The exact value rounded to some places, a half to the even neighbour. -/
def Binary64.fixed (x : Binary64) (places : Nat) : String :=
  let r := x.ratio
  withPlaces (roundQuotient (r.num * Nat.pow 10 places) r.den) places

end CheckerAudit.Numeral
