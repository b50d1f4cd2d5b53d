namespace ViewTree

def twoTo (k : Nat) : Nat := Nat.pow 2 k

def tenTo (k : Nat) : Nat := Nat.pow 10 k

structure Double where
  bits : UInt64
deriving DecidableEq, Inhabited

namespace Double

inductive Magnitude
  | notANumber
  | infinite
  | finite (significand : Nat) (exponent : Int)
deriving DecidableEq

def isNegative (x : Double) : Bool :=
  x.bits.toNat / twoTo 63 == 1

def exponentField (x : Double) : Nat :=
  x.bits.toNat / twoTo 52 % twoTo 11

def fractionField (x : Double) : Nat :=
  x.bits.toNat % twoTo 52

def magnitude (x : Double) : Magnitude :=
  if x.exponentField = 2047 then
    if x.fractionField = 0 then .infinite else .notANumber
  else if x.exponentField = 0 then .finite x.fractionField (-1074)
  else .finite (twoTo 52 + x.fractionField) (x.exponentField - 1075)

def isNaN (x : Double) : Bool :=
  x.magnitude == .notANumber

def isZero (x : Double) : Bool :=
  match x.magnitude with
  | .finite 0 _ => true
  | _ => false

/-- Numeric equality: no pattern equals a NaN, and the two zeros are equal. -/
def sameValue (x y : Double) : Bool :=
  !x.isNaN && (x == y || x.isZero && y.isZero)

def ratio? (x : Double) : Option (Int × Nat) :=
  let signed (m : Nat) : Int := if x.isNegative then -(m : Int) else m
  match x.magnitude with
  | .finite m (.ofNat q) => some (signed (m * twoTo q), 1)
  | .finite m (.negSucc q) => some (signed m, twoTo (q + 1))
  | _ => none

def toInt? (x : Double) : Option Int :=
  match x.ratio? with
  | some (numerator, denominator) =>
    if numerator % denominator = 0 then some (numerator / denominator) else none
  | none => none

def isBelow (x : Double) (n : Int) : Bool :=
  match x.ratio? with
  | some (numerator, denominator) => numerator < n * denominator
  | none => !x.isNaN && x.isNegative

def isAtMost (x : Double) (n : Int) : Bool :=
  match x.ratio? with
  | some (numerator, denominator) => numerator ≤ n * denominator
  | none => !x.isNaN && x.isNegative

/-- How often one can be taken from a number until it is at most zero; none if that never ends. -/
def steps? (x : Double) : Option Nat :=
  match x.ratio? with
  | some (numerator, denominator) => some ((numerator + (denominator - 1)) / denominator).toNat
  | none => if x.isAtMost 0 then some 0 else none

private def withSign (negative : Bool) (pattern : Nat) : Double :=
  ⟨.ofNat (if negative then twoTo 63 + pattern else pattern)⟩

def nan (payload : Nat := 0) : Double := ⟨.ofNat (2047 * twoTo 52 + twoTo 51 + payload % twoTo 51)⟩

def infinity (negative : Bool) : Double := withSign negative (2047 * twoTo 52)

def zero (negative : Bool) : Double := withSign negative 0

def roundedQuotient (numerator denominator : Nat) : Nat :=
  let quotient := numerator / denominator
  let twice := 2 * (numerator % denominator)
  if twice < denominator then quotient
  else if denominator < twice then quotient + 1
  else quotient + quotient % 2

/-- The number nearest to `numerator / denominator`.  Adding the significand to the shifted
exponent carries a rounding overflow into the exponent field by itself. -/
def ofRatio (negative : Bool) (numerator denominator : Nat) : Double :=
  if numerator = 0 then zero negative
  else
    let guess : Int := numerator.log2 - denominator.log2 - 52
    let scaled (q : Int) : Nat × Nat :=
      (numerator * twoTo (-q).toNat, denominator * twoTo q.toNat)
    let settled := if (scaled guess).1 / (scaled guess).2 < twoTo 52 then guess - 1 else guess
    let exponent := max settled (-1074)
    let significand := roundedQuotient (scaled exponent).1 (scaled exponent).2
    let pattern := (exponent + 1074).toNat * twoTo 52 + significand
    if 2047 * twoTo 52 ≤ pattern then infinity negative else withSign negative pattern

/-- The number nearest to `digits * 10 ^ exponent`.  Exponents far outside the range are settled
without computing the power. -/
def ofDecimal (negative : Bool) (digits : Nat) (exponent : Int) : Double :=
  if digits = 0 then zero negative
  else if 400 < exponent then infinity negative
  else
    let length := digits.log2 / 3 + 1
    if exponent + length < -400 then zero negative
    else ofRatio negative (digits * tenTo exponent.toNat) (tenTo (-exponent).toNat)

end Double

end ViewTree
