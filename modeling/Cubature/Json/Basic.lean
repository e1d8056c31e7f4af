import Cubature.Decimal.Scaled
import Cubature.Size

/-!
# JSON values

A JSON text read into a tree. Numbers keep their digits, so a number of any size is well formed and
is given a value only where one is wanted. Strings and keys keep their escapes of 16-bit units,
which need not pair up unless the string or the key is decoded.

* `Numeral.toFloat?`, `Numeral.toWord?`: the value of a number as a double or as a 64-bit count.
* `decode?`: the characters of a string.
-/

namespace Cubature.Json

/-- A decimal number as it is written: its sign, its digits before and after the point, and its
exponent. -/
structure Numeral where
  negative : Bool
  whole : List Char
  fraction : Option (List Char)
  exponent : Option Int
  deriving DecidableEq

/-- The value of a digit. -/
def digitValue (c : Char) : Nat := c.toNat - '0'.toNat

/-- Takes digits into a significand while it stays a word. The digits that are left over are
returned with it. -/
def absorb (significand : Nat) : List Char → Nat × List Char
  | [] => (significand, [])
  | c :: rest =>
    let more := significand * 10 + digitValue c
    if more < Size.wordCount then absorb more rest else (significand, c :: rest)

namespace Numeral

/-- The significand with the power of ten it is counted in. Digits before the point that do not fit
count as zeros, digits after it that do not fit are left out. -/
def significand (n : Numeral) : Nat × Int :=
  let (head, zeros) := absorb 0 n.whole
  let digits := n.fraction.getD []
  let (all, unused) := absorb head digits
  (all, (zeros.length : Int) - (digits.length - unused.length : Nat) + n.exponent.getD 0)

/-- The value as a floating-point number, unless it is too large. -/
def toFloat? (n : Numeral) : Option Float :=
  let (significand, exponent) := n.significand
  (Decimal.scale significand exponent).map fun f => if n.negative then -f else f

/-- The value as a count. A sign, a fraction or an exponent is refused, and so is a value that is
not a word. -/
def toWord? (n : Numeral) : Option Nat :=
  if n.negative || n.fraction.isSome || n.exponent.isSome then none
  else
    match absorb 0 n.whole with
    | (value, []) => some value
    | _ => none

end Numeral

/-- A piece of a string: a character, or a 16-bit unit written as an escape. -/
inductive Piece where
  | char (c : Char)
  | unit (code : Nat)
  deriving DecidableEq

/-- The first unit of a surrogate pair. -/
def isHighSurrogate (code : Nat) : Bool := 0xD800 ≤ code && code < 0xDC00

/-- The second unit of a surrogate pair. -/
def isLowSurrogate (code : Nat) : Bool := 0xDC00 ≤ code && code < 0xE000

/-- The characters of a string. Surrogates must come in pairs. -/
def decode? : List Piece → Option (List Char)
  | [] => some []
  | .char c :: rest => (decode? rest).map (c :: ·)
  | .unit code :: rest =>
    if isLowSurrogate code then none
    else if isHighSurrogate code then
      match rest with
      | .unit low :: rest =>
        if isLowSurrogate low then
          (decode? rest).map
            (Char.ofNat (0x10000 + (code - 0xD800) * 0x400 + (low - 0xDC00)) :: ·)
        else none
      | _ => none
    else (decode? rest).map (Char.ofNat code :: ·)

end Cubature.Json

namespace Cubature

/-- A JSON value. The members of an object keep their order, and a key may come more than once. A
key is kept in pieces as a string is, so that a value can be skipped without decoding its keys. -/
inductive Json where
  | null
  | bool (value : Bool)
  | number (value : Json.Numeral)
  | string (value : List Json.Piece)
  | array (items : List Json)
  | object (members : List (List Json.Piece × Json))

end Cubature
