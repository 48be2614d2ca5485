import Quill.Decimal.Shortest

/-!
# How numbers are written

Whole numbers are written in decimal. A finite float is written with the fewest digits that read
back as the same number: positionally, with at least one digit after the point, when it is zero or
its magnitude is at least 0.0001 and below 10^16, and otherwise as one digit, the remaining digits
after a point, and `e` with the exponent.
-/

namespace Quill

structure FloatNotation where
  /-- Positional notation from `10 ^ lowest` on … -/
  lowest : Int
  /-- … and below `10 ^ highest`. -/
  highest : Int
  infinity : String
  notNumber : String
  deriving Inhabited, Repr

namespace Decimal

def zeros (n : Nat) : List Char := List.replicate n '0'

def digitChars (n : Nat) : List Char := Nat.toDigits 10 n

def trim (d : Decimal) : Decimal :=
  if d.digits = 0 then d
  else
    let kept := (digitChars d.digits).reverse.dropWhile (· == '0')
    let dropped := width d.digits - kept.length
    ⟨d.digits / Nat.pow 10 dropped, d.exponent + dropped⟩

/-- All digits, with a point among them and at least one digit on either side. -/
def positional (d : Decimal) : List Char :=
  let ds := digitChars d.digits
  if 0 ≤ d.exponent then ds ++ zeros d.exponent.toNat ++ ".0".toList
  else
    let places := (-d.exponent).toNat
    let padded := zeros (places + 1 - ds.length) ++ ds
    let cut := padded.length - places
    padded.take cut ++ '.' :: padded.drop cut

/-- One digit, the others after a point, and the exponent. -/
def scientific (d : Decimal) : List Char :=
  let ds := digitChars d.digits
  let power : Int := d.exponent + ds.length - 1
  let rest := ds.drop 1
  ds.take 1 ++ (if rest.isEmpty then [] else '.' :: rest) ++ 'e' :: (toString power).toList

def leading (d : Decimal) : Int := d.exponent + width d.digits - 1

end Decimal

namespace FloatNotation

def magnitude (style : FloatNotation) (b : Binary) : List Char :=
  let d := (Decimal.shortest b).trim
  if d.digits = 0 then d.positional
  else if style.lowest ≤ d.leading && d.leading < style.highest then d.positional
  else d.scientific

def write (style : FloatNotation) (x : Float) : String :=
  let bits := x.toBits
  let sign := if bits.toNat.testBit 63 then ['-'] else []
  match Binary.ofBits bits with
  | some b => String.ofList (sign ++ style.magnitude b)
  | none =>
    if x.isNaN then style.notNumber else String.ofList (sign ++ style.infinity.toList)

/-- How the language itself shows floats. -/
def spoken : FloatNotation := ⟨-4, 16, "Infinity", "NaN"⟩

/-- How syntax and answers to a host show floats. -/
def plain : FloatNotation := ⟨-4, 16, "inf", "NaN"⟩

end FloatNotation

end Quill
