import ViewTree.Number.Double

/-!
Decimal texts of numbers.  `Decimal.shortest` gives the fewest digits that read back as the same
number, and of those the nearest; `DecimalStyle` says how digits and exponent are laid out.
-/

namespace ViewTree

structure Decimal where
  digits : Nat
  exponent : Int
deriving DecidableEq, Repr

namespace Decimal

def trim : Nat → Decimal → Decimal
  | 0, x => x
  | limit + 1, x =>
    if x.digits ≠ 0 ∧ x.digits % 10 = 0 then trim limit ⟨x.digits / 10, x.exponent + 1⟩ else x

def digitCount (n : Nat) : Nat :=
  (Nat.toDigits 10 n).length

/-- The `e` with `10 ^ (e - 1) ≤ numerator / denominator < 10 ^ e`, for a positive quotient. -/
def decade (numerator denominator : Nat) : Int :=
  if denominator ≤ numerator then digitCount (numerator / denominator)
  else
    let k := digitCount (denominator / numerator)
    if denominator ≤ numerator * tenTo (k - 1) then 2 - (k : Int) else 1 - (k : Int)

structure Interval where
  denominator : Nat
  lower : Nat
  value : Nat
  upper : Nat
  closed : Bool

/-- The interval of `significand * 2 ^ exponent`.  Below the least significand of a binade the
neighbour is half as far away. -/
def Interval.around (significand : Nat) (exponent : Int) : Interval :=
  let scale := twoTo (exponent - 2).toNat
  let gapBelow := if significand = twoTo 52 ∧ -1074 < exponent then 1 else 2
  { denominator := twoTo (2 - exponent).toNat
    lower := (4 * significand - gapBelow) * scale
    value := 4 * significand * scale
    upper := (4 * significand + 2) * scale
    closed := significand % 2 = 0 }

def Interval.holds (i : Interval) (x : Decimal) : Bool :=
  let point := x.digits * tenTo x.exponent.toNat * i.denominator
  let unit := tenTo (-x.exponent).toNat
  if i.closed then i.lower * unit ≤ point ∧ point ≤ i.upper * unit
  else i.lower * unit < point ∧ point < i.upper * unit

/-- The neighbours of the value among the multiples of `10 ^ exponent`: the one at or below it,
the one above it, and whether the lower one is at least as near, a tie going to the even one. -/
def Interval.neighbours (i : Interval) (exponent : Int) : Decimal × Decimal × Bool :=
  let numerator := i.value * tenTo (-exponent).toNat
  let denominator := i.denominator * tenTo exponent.toNat
  let below := numerator / denominator
  let rest := 2 * (numerator % denominator)
  (⟨below, exponent⟩, ⟨below + 1, exponent⟩,
    rest < denominator || rest = denominator && below % 2 = 0)

def Interval.search (i : Interval) : Nat → Int → Decimal
  | 0, exponent => (i.neighbours exponent).1
  | count + 1, exponent =>
    match i.neighbours exponent with
    | (below, above, lowerNearer) =>
      match i.holds below, i.holds above with
      | true, true => if lowerNearer then below else above
      | true, false => below
      | false, true => above
      | false, false => i.search count (exponent - 1)

/-- The fewest digits that read back as `significand * 2 ^ exponent`.  Seventeen always do. -/
def shortest (significand : Nat) (exponent : Int) : Decimal :=
  if significand = 0 then ⟨0, 0⟩
  else
    let i := Interval.around significand exponent
    trim 17 (i.search 17 (decade i.value i.denominator - 1))

end Decimal

/-- How digits are laid out: positionally for leading-digit exponents in a range, with a point and
at least one digit after it; otherwise with a signed exponent of at least `exponentWidth` digits. -/
structure DecimalStyle where
  lowestPositional : Int
  highestPositional : Int
  exponentWidth : Nat

namespace DecimalStyle

private def zeros (n : Nat) : List Char :=
  List.replicate n '0'

def positional (digits : List Char) (whole : Int) : List Char :=
  if whole ≤ 0 then '0' :: '.' :: zeros (-whole).toNat ++ digits
  else if digits.length ≤ whole then
    digits ++ zeros (whole.toNat - digits.length) ++ ['.', '0']
  else digits.take whole.toNat ++ '.' :: digits.drop whole.toNat

def scientific (style : DecimalStyle) (digits : List Char) (exponent : Int) : List Char :=
  let fraction := match digits.drop 1 with
    | [] => []
    | rest => '.' :: rest
  let power := Nat.toDigits 10 exponent.natAbs
  digits.take 1 ++ fraction ++ 'e' :: (if exponent < 0 then '-' else '+') ::
    zeros (style.exponentWidth - power.length) ++ power

def magnitudeText (style : DecimalStyle) (x : Decimal) : List Char :=
  let digits := Nat.toDigits 10 x.digits
  let leading := x.exponent + digits.length - 1
  if style.lowestPositional ≤ leading ∧ leading ≤ style.highestPositional then
    positional digits (leading + 1)
  else style.scientific digits leading

def text (style : DecimalStyle) (x : Double) : String :=
  let sign (cs : List Char) := String.ofList (if x.isNegative then '-' :: cs else cs)
  match x.magnitude with
  | .notANumber => "nan"
  | .infinite => sign "inf".toList
  | .finite m q => sign (style.magnitudeText (Decimal.shortest m q))

end DecimalStyle

end ViewTree
