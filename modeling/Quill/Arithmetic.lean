import Quill.Eval.Fault

/-!
# Arithmetic

Whole numbers are exact: a result that has no place among the 64-bit numbers is an overflow and not
rounded or wrapped. Division rounds down and the remainder has the sign of the divisor, for floats
too.
-/

namespace Quill

def checkedInt (z : Int) : Except Fault Int64 :=
  if Int64.minValue.toInt ≤ z ∧ z ≤ Int64.maxValue.toInt then .ok (Int64.ofInt z)
  else .error .overflow

def Float.isNegative (x : Float) : Bool := x.toBits.toNat.testBit 63

/-- The remainder of `a` by `b` that division toward zero leaves, which is exact. -/
def Float.remainder (a b : Float) : Float :=
  match Binary.ofBits a.toBits, Binary.ofBits b.toBits with
  | some x, some y =>
    if y.m = 0 then 0.0 / 0.0
    else
      let q := min x.q y.q
      let r := (x.m <<< (x.q - q).toNat) % (y.m <<< (y.q - q).toNat)
      let size := Decimal.floatOf (Ratio.scale ⟨r, 1⟩ 2 q)
      if Float.isNegative a then -size else size
  | some _, none => if b.isNaN then b else a
  | none, _ => 0.0 / 0.0

/-- A float without its fraction, if it is far enough inside the range of whole numbers. -/
def Float.truncated? (x : Float) : Option Int64 :=
  match Binary.ofBits x.toBits with
  | none => none
  | some b =>
    let size := b.ratio.floor
    if size < 9200000000000000000 then
      some (Int64.ofInt (if Float.isNegative x then -size else size))
    else none

/-- The quotient of words rounded down. The least word has none by `-1`. A machine rounds toward
zero, which is one too high if there is a remainder and the signs differ. -/
def Int64.floorDiv? (a b : Int64) : Option Int64 :=
  if a = Int64.minValue ∧ b = -1 then none
  else some (if a % b ≠ 0 ∧ decide (a < 0) ≠ decide (b < 0) then a / b - 1 else a / b)

/-- The remainder of words with the sign of the divisor. That of a machine has the sign of the
dividend. -/
def Int64.floorMod (a b : Int64) : Int64 :=
  let r := a % b
  if r ≠ 0 ∧ decide (r < 0) ≠ decide (b < 0) then r + b else r

namespace Arithmetic

def onInts (op : Arithmetic) (a b : Int64) : Except Fault Int64 :=
  match op with
  | add => checkedInt (a.toInt + b.toInt)
  | sub => checkedInt (a.toInt - b.toInt)
  | mul => checkedInt (a.toInt * b.toInt)
  | div =>
    if b = 0 then .error .divisionByZero
    else match Int64.floorDiv? a b with
      | some q => .ok q
      | none => .error .overflow
  | mod => if b = 0 then .error .divisionByZero else .ok (Int64.floorMod a b)

def onFloats (op : Arithmetic) (a b : Float) : Except Fault Float :=
  match op with
  | add => .ok (a + b)
  | sub => .ok (a - b)
  | mul => .ok (a * b)
  | div => if b == 0.0 then .error .divisionByZero else .ok (a / b)
  | mod =>
    if b == 0.0 then .error .divisionByZero
    else
      let r := Float.remainder a b
      .ok (if r != 0.0 && (r < 0.0) != (b < 0.0) then r + b else r)

/-- Whole numbers stay whole; with a float among them both are floats. -/
def onValues (op : Arithmetic) (a b : Value) : Except Fault Value :=
  match a, b with
  | .int a, .int b => (op.onInts a b).map .int
  | a, b => match a.number?, b.number? with
    | some a, some b => (op.onFloats a b).map .float
    | _, _ => .error (.unexpected "numbers")

end Arithmetic

/-- How two floats compare; what is no number does not. -/
def compareFloats (a b : Float) : Option Ordering :=
  if a < b then some .lt else if a == b then some .eq else if b < a then some .gt else none

def compareNumbers (a b : Value) : Option Ordering :=
  match a, b with
  | .int a, .int b => some (compare a.toInt b.toInt)
  | a, b => match a.number?, b.number? with
    | some a, some b => compareFloats a b
    | _, _ => none

end Quill
