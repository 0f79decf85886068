/-!
# Shortest decimal text of a single-precision number

A finite nonzero `Float32` is `m · 2 ^ q`. The reals that round back to it form an interval
around it whose ends lie halfway to the neighbouring floats; the ends belong to the interval
exactly when `m` is even, because a tie rounds to the even significand. The text of the number
uses the coarsest decimal grid `10 ^ t` that meets this interval: fewer significant digits
cannot read back. On that grid one of the value's two neighbours lies in the interval; when
both do, the nearer one is written, and an exact tie goes to the larger magnitude.

The digits are laid out positionally, never with an exponent: `1e20` is written as
`100000000000000000000` and `1e-7` as `0.0000001`. Zero is `0` (or `-0`), the infinities are
`inf` and `-inf`, and a NaN is `NaN`.

All arithmetic is exact, on natural numbers.
-/

namespace Jass.Decimal

structure Binary where
  negative : Bool
  mant : Nat
  exp : Int
  /-- The float just below is closer than the one just above: the value is a power of two
  that is a normal number above the smallest normal one. -/
  narrowBelow : Bool
  deriving Repr

inductive Kind where
  | nan
  | infinite (negative : Bool)
  | finite (b : Binary)
  deriving Repr

def Kind.ofBits (bits : Nat) : Kind :=
  let negative : Bool := bits / Nat.pow 2 31 % 2 == 1
  let e : Nat := bits / Nat.pow 2 23 % 256
  let f : Nat := bits % Nat.pow 2 23
  if e == 255 then
    if f == 0 then .infinite negative else .nan
  else if e == 0 then
    .finite ⟨negative, f, -149, false⟩
  else
    .finite ⟨negative, f + Nat.pow 2 23, (e : Int) - 150, f == 0 && e > 1⟩

def Kind.of (x : Float32) : Kind := Kind.ofBits x.toBits.toNat

structure Decimal where
  digits : Nat
  exp : Int
  deriving Repr, DecidableEq

structure Interval where
  lo : Nat
  mid : Nat
  hi : Nat
  scale : Int
  inclusive : Bool

def Binary.interval (b : Binary) : Interval :=
  { lo := 4 * b.mant - (if b.narrowBelow then 1 else 2)
    mid := 4 * b.mant
    hi := 4 * b.mant + 2
    scale := b.exp - 2
    inclusive := b.mant % 2 == 0 }

/-- Factors `(a, b)` such that `c · 10 ^ t` compares with `n · 2 ^ s` as `c * a` with `n * b`. -/
def crossScale (s t : Int) : Nat × Nat :=
  (Nat.pow 10 t.toNat * Nat.pow 2 (-s).toNat, Nat.pow 2 s.toNat * Nat.pow 10 (-t).toNat)

def Interval.holds (iv : Interval) (a b c : Nat) : Bool :=
  let x := c * a
  if iv.inclusive then iv.lo * b ≤ x && x ≤ iv.hi * b
  else iv.lo * b < x && x < iv.hi * b

/-- The point of the grid `10 ^ t` that is written, if the grid meets the interval: the nearer
of the value's two neighbours on the grid, the upper one on a tie. -/
def Interval.onGrid (iv : Interval) (t : Int) : Option Decimal :=
  let (a, b) := crossScale iv.scale t
  let v := iv.mid * b
  let down := v / a
  let up := (v + a - 1) / a
  match iv.holds a b down, iv.holds a b up with
  | true, true => some ⟨if v - down * a < up * a - v then down else up, t⟩
  | true, false => some ⟨down, t⟩
  | false, true => some ⟨up, t⟩
  | false, false => none

def Interval.search (iv : Interval) : Nat → Int → Option Decimal
  | 0, _ => none
  | fuel + 1, t =>
    match iv.onGrid t with
    | some d => some d
    | none => iv.search fuel (t - 1)

/-- The coarsest grid starts above the largest finite float (`3.4 · 10 ^ 38`) and the search
reaches below the smallest positive one (`1.4 · 10 ^ -45`). -/
def Binary.shortest (b : Binary) : Decimal :=
  (b.interval.search 100 39).getD ⟨b.mant, 0⟩

/-- Positional layout of `digits · 10 ^ exp`: trailing zeros for a nonnegative exponent,
otherwise a decimal point with at least one digit before it. -/
def Decimal.positional (d : Decimal) : String :=
  let ds := (Nat.repr d.digits).toList
  if d.exp ≥ 0 then
    String.ofList (ds ++ List.replicate d.exp.toNat '0')
  else
    let k := (-d.exp).toNat
    if k < ds.length then
      String.ofList (ds.take (ds.length - k) ++ '.' :: ds.drop (ds.length - k))
    else
      String.ofList ('0' :: '.' :: List.replicate (k - ds.length) '0' ++ ds)

def text (x : Float32) : String :=
  match Kind.of x with
  | .nan => "NaN"
  | .infinite negative => if negative then "-inf" else "inf"
  | .finite b =>
    let sign := if b.negative then "-" else ""
    if b.mant == 0 then sign ++ "0" else sign ++ b.shortest.positional

end Jass.Decimal
