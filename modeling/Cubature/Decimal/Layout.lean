import Cubature.Decimal.Binary64
import Cubature.Decimal.Shortest

/-!
# Number text

A `Layout` holds the decisions of one number format: how far numbers are written positionally,
whether a whole number keeps a fraction digit, and the words for what is not a number.

* `Layout.render`: the text of a floating-point number.
* `Layout.prose`, `Layout.data`: the formats of messages and of stored files.
-/

namespace Cubature.Decimal

/-- The decisions of a number format. -/
structure Layout where
  /-- Which of two equally near shortest decimals is written. -/
  tie : Tie
  /-- The least and the greatest place of the decimal point, counted from the first digit, that are
  written positionally; without bounds every number is. -/
  positional : Option (Int × Int)
  /-- Whether a whole number written positionally ends in `.0`. -/
  keepFraction : Bool
  nan : String
  infinite : String
  negativeInfinite : String

/-- Messages never use an exponent and leave out `.0`. -/
def Layout.prose : Layout :=
  { tie := .up, positional := none, keepFraction := false
    nan := "NaN", infinite := "inf", negativeInfinite := "-inf" }

/-- Files write an exponent below `10 ^ -5` and from `10 ^ 16` on, keep `.0`, and have `null` for
what is not a finite number. -/
def Layout.data : Layout :=
  { tie := .toEven, positional := some (-4, 16), keepFraction := true
    nan := "null", infinite := "null", negativeInfinite := "null" }

/-- The digits with a point among them, in front of them or behind them. -/
def Digits.positional (keepFraction : Bool) (d : Digits) : List Char :=
  if d.point ≤ 0 then '0' :: '.' :: (List.replicate (-d.point).toNat '0' ++ d.digits)
  else if d.digits.length ≤ d.point.toNat then
    d.digits ++ List.replicate (d.point.toNat - d.digits.length) '0'
      ++ (if keepFraction then ['.', '0'] else [])
  else d.digits.take d.point.toNat ++ '.' :: d.digits.drop d.point.toNat

/-- The first digit, the others behind a point, and the exponent with its sign. -/
def Digits.scientific (d : Digits) : List Char :=
  let exponent := d.point - 1
  let sign := if exponent < 0 then '-' else '+'
  let fraction := match d.digits.drop 1 with
    | [] => []
    | rest => '.' :: rest
  d.digits.take 1 ++ fraction ++ 'e' :: sign :: Nat.toDigits 10 exponent.natAbs

/-- The digits of a positive number in the given format. -/
def Layout.write (l : Layout) (d : Digits) : List Char :=
  match l.positional with
  | none => d.positional l.keepFraction
  | some (least, greatest) =>
    if least ≤ d.point ∧ d.point ≤ greatest then d.positional l.keepFraction else d.scientific

/-- The minus sign of a negative number, zero included. -/
def signText (x : Float) : List Char := if isNegative x then ['-'] else []

/-- The text of a floating-point number. -/
def Layout.render (l : Layout) (x : Float) : List Char :=
  match magnitude x with
  | .nan => l.nan.toList
  | .infinite => if isNegative x then l.negativeInfinite.toList else l.infinite.toList
  | .zero => signText x ++ l.write { digits := ['0'], point := 1 }
  | .finite m q => signText x ++ l.write (shortest l.tie m q)

end Cubature.Decimal
