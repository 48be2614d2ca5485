/-!
# Binary fractions as decimals, and back

A double is `m * 2 ^ q` with a whole `m`. `Decimal.shortest` gives the fewest decimal digits that
still read back as the same double, and of those the ones nearest to it; `Decimal.nearest` gives the
double nearest to a decimal. Both work in exact natural number arithmetic.
-/

namespace Quill

/-- The number `digits * 10 ^ exponent`. -/
structure Decimal where
  digits : Nat
  exponent : Int
  deriving DecidableEq, Inhabited, Repr

/-- A positive fraction `num / den`. -/
structure Ratio where
  num : Nat
  den : Nat
  deriving DecidableEq, Inhabited, Repr

namespace Ratio

/-- Multiplies by `base ^ e`, where `e` may be negative. -/
def scale (r : Ratio) (base : Nat) (e : Int) : Ratio :=
  if 0 ≤ e then ⟨r.num * base.pow e.toNat, r.den⟩ else ⟨r.num, r.den * base.pow (-e).toNat⟩

def floor (r : Ratio) : Nat := r.num / r.den

/-- The nearest whole number; a half goes to the even neighbour. -/
def roundHalfEven (r : Ratio) : Nat :=
  let whole := r.num / r.den
  let twice := 2 * (r.num % r.den)
  if twice < r.den then whole
  else if r.den < twice then whole + 1
  else whole + whole % 2

end Ratio

/-- A finite positive double `m * 2 ^ q`. -/
structure Binary where
  m : Nat
  q : Int
  deriving DecidableEq, Inhabited, Repr

namespace Binary

def minExponent : Int := -1074

/-- The first bit of a significand, which only the subnormal numbers lack. -/
def leading : Nat := 1 <<< 52

def limit : Nat := 1 <<< 53

/-- Reads a double without its sign bit; none for the infinities and for what is no number. -/
def ofBits (bits : UInt64) : Option Binary :=
  let fraction := bits.toNat % leading
  let biased := bits.toNat / leading % 2048
  if biased = 2047 then none
  else if biased = 0 then some ⟨fraction, minExponent⟩
  else some ⟨leading + fraction, Int.ofNat biased - 1075⟩

/-- Writes a double; a significand of `2 ^ 53` carries into the exponent, and what is too large
becomes infinite. -/
def toBits (b : Binary) : UInt64 :=
  if b.m < leading then UInt64.ofNat b.m
  else
    let biased := (b.q + 1075).toNat + (if b.m = limit then 1 else 0)
    if 2047 ≤ biased then UInt64.ofNat (2047 * leading)
    else UInt64.ofNat (biased * leading + b.m % leading)

/-- The gap below `b` is half as wide as the one above when `b` starts a new power of two. -/
def narrowBelow (b : Binary) : Bool := b.m == leading && minExponent < b.q

def ratio (b : Binary) : Ratio := Ratio.scale ⟨b.m, 1⟩ 2 b.q

def lower (b : Binary) : Ratio :=
  Ratio.scale ⟨4 * b.m - (if b.narrowBelow then 1 else 2), 4⟩ 2 b.q

def upper (b : Binary) : Ratio := Ratio.scale ⟨4 * b.m + 2, 4⟩ 2 b.q

/-- `x` lies among the numbers that round to `b`; the ends do when the significand is even. -/
def admits (b : Binary) (x : Ratio) : Bool :=
  let lo := b.lower
  let hi := b.upper
  if b.m % 2 = 0 then lo.num * x.den ≤ x.num * lo.den && x.num * hi.den ≤ hi.num * x.den
  else lo.num * x.den < x.num * lo.den && x.num * hi.den < hi.num * x.den

/-- The double nearest to a fraction, a half going to the even significand. -/
def nearest (r : Ratio) : Binary :=
  let guess : Int := (r.num.log2 : Int) - (r.den.log2 : Int) - 52
  -- The guess is at most one too high.
  let tight := if (r.scale 2 (-guess)).floor < leading then guess - 1 else guess
  let q := max tight minExponent
  ⟨(r.scale 2 (-q)).roundHalfEven, q⟩

end Binary

namespace Decimal

def ratio (d : Decimal) : Ratio := Ratio.scale ⟨d.digits, 1⟩ 10 d.exponent

/-- How many digits a natural number has, zero having none. -/
def width (n : Nat) : Nat := if n = 0 then 0 else (Nat.toDigits 10 n).length

/-- The least power of ten above `r`, given as its exponent. -/
def magnitude (r : Ratio) : Int :=
  if r.den ≤ r.num then width r.floor
  else
    let guess : Int := (width r.num : Int) - width r.den
    -- The guess is at most one too low.
    if (r.scale 10 (-guess)).floor = 0 then guess else guess + 1

/-- Of the decimals that are whole multiples of `10 ^ e`, the one next to `b` that reads back as
`b`; of two the nearer, and of two equally near the larger. -/
def onGrid (b : Binary) (e : Int) : Option Decimal :=
  let scaled := b.ratio.scale 10 (-e)
  let below : Decimal := ⟨scaled.floor, e⟩
  let above : Decimal := ⟨scaled.floor + 1, e⟩
  match b.admits below.ratio, b.admits above.ratio with
  | true, true => some (if 2 * (scaled.num % scaled.den) < scaled.den then below else above)
  | true, false => some below
  | false, true => some above
  | false, false => none

/-- Tries ever finer grids: `n` more of them, from `10 ^ e` down. -/
def search (b : Binary) : Nat → Int → Decimal
  | 0, e => ⟨(b.ratio.scale 10 (-e)).roundHalfEven, e⟩
  | n + 1, e => match onGrid b e with
    | some d => d
    | none => search b n (e - 1)

/-- The fewest digits that read back as `b`: seventeen are always enough. -/
def shortest (b : Binary) : Decimal :=
  if b.m = 0 then ⟨0, 0⟩ else search b 17 (magnitude b.ratio - 1)

def floatOf (r : Ratio) : Float :=
  if r.num = 0 then 0.0 else Float.ofBits (Binary.nearest r).toBits

def toFloat (d : Decimal) : Float := floatOf d.ratio

end Decimal

end Quill
