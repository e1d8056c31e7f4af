import Cubature.Decimal.Binary64

/-!
# The fewest digits that read back

A floating-point number `m * 2 ^ q` owns the interval of reals that round to it. Among the decimal
numbers in that interval, `shortest` takes those with the fewest digits, and of these the nearest.

For each number of digits in turn, the value's two neighbours among the decimals with that many
digits are tried in exact arithmetic; the first number of digits with a neighbour in the interval
wins.
-/

namespace Cubature.Decimal

/-- The decimal number `0.d₁d₂… * 10 ^ point`. The last digit is not zero. -/
structure Digits where
  digits : List Char
  point : Int
  deriving DecidableEq, Repr

/-- Which of two equally near decimals is taken. -/
inductive Tie where
  | toEven
  | up
  deriving DecidableEq, Repr

/-- The reals that round to `m * 2 ^ q`, counted in quarters of a unit: from `lower` to `upper`
around `value`. The ends belong to it if `closed`. -/
structure Interval where
  lower : Nat
  value : Nat
  upper : Nat
  closed : Bool
  exponent : Int

/-- The interval of `m * 2 ^ q`. Below a power of two the numbers lie twice as close, except at the
bottom of the exponent range. -/
def Interval.around (m : Nat) (q : Int) : Interval :=
  { lower := if m = fractionCount ∧ -1074 < q then 4 * m - 1 else 4 * m - 2
    value := 4 * m
    upper := 4 * m + 2
    closed := m % 2 = 0
    exponent := q - 2 }

/-- The decimals that are multiples of `10 ^ spacing`, seen from an interval: one step is `step`
and one quarter unit is `quarter` of a common measure. -/
structure Grid where
  step : Nat
  quarter : Nat
  spacing : Int

/-- The multiples of `10 ^ spacing` beside quarter units of `2 ^ exponent`. -/
def Grid.over (exponent spacing : Int) : Grid :=
  { step := Nat.pow 10 spacing.toNat * Nat.pow 2 (-exponent).toNat
    quarter := Nat.pow 2 exponent.toNat * Nat.pow 10 (-spacing).toNat
    spacing }

/-- Whether the `c`-th multiple lies in the interval. -/
def Grid.contains (g : Grid) (i : Interval) (c : Nat) : Bool :=
  if i.closed then i.lower * g.quarter ≤ c * g.step && c * g.step ≤ i.upper * g.quarter
  else i.lower * g.quarter < c * g.step && c * g.step < i.upper * g.quarter

/-- The multiple just below the value, or the value itself. -/
def Grid.floor (g : Grid) (i : Interval) : Nat := i.value * g.quarter / g.step

/-- Whether the multiple after the `c`-th is taken, both lying in the interval. -/
def Grid.prefersNext (g : Grid) (i : Interval) (tie : Tie) (c : Nat) : Bool :=
  let twice := 2 * (i.value * g.quarter)
  let middle := (2 * c + 1) * g.step
  if twice = middle then
    match tie with
    | .toEven => c % 2 = 1
    | .up => true
  else middle < twice

/-- The multiple that stands for the value, if one of its two neighbours lies in the interval. -/
def Grid.hit? (g : Grid) (i : Interval) (tie : Tie) : Option Nat :=
  let c := g.floor i
  match g.contains i c, g.contains i (c + 1) with
  | true, true => some (if g.prefersNext i tie c then c + 1 else c)
  | true, false => some c
  | false, true => some (c + 1)
  | false, false => none

/-- The number of decimal digits of a natural number. -/
def digitCount (n : Nat) : Nat := (Nat.toDigits 10 n).length

/-- The `p` for which `num / den` lies between `10 ^ (p - 1)` and `10 ^ p`. -/
def decimalExponent (num den : Nat) : Int :=
  if den ≤ num then digitCount (num / den)
  else 1 - digitCount ((den + num - 1) / num - 1)

/-- The exponent of the interval's value. -/
def Interval.decimalExponent (i : Interval) : Int :=
  Decimal.decimalExponent (i.value * Nat.pow 2 i.exponent.toNat) (Nat.pow 2 (-i.exponent).toNat)

/-- The digits of `c * 10 ^ spacing`, trailing zeros left out. -/
def Digits.ofMultiple (c : Nat) (spacing : Int) : Digits :=
  let digits := Nat.toDigits 10 c
  { digits := (digits.reverse.dropWhile (· == '0')).reverse
    point := digits.length + spacing }

/-- The grid on which the interval's value has `n` digits. -/
def Interval.grid (i : Interval) (n : Nat) : Grid := .over i.exponent (i.decimalExponent - n)

/-- The first hit from `n` digits on; without one, the value cut after the last number of digits
that was tried. -/
def Interval.search (i : Interval) (tie : Tie) (n : Nat) : Nat → Digits
  | 0 => .ofMultiple ((i.grid n).floor i) (i.grid n).spacing
  | more + 1 =>
    match (i.grid n).hit? i tie with
    | some c => .ofMultiple c (i.grid n).spacing
    | none => i.search tie (n + 1) more

/-- The shortest decimal that reads back as `m * 2 ^ q`. Seventeen digits always do. -/
def shortest (tie : Tie) (m : Nat) (q : Int) : Digits := (Interval.around m q).search tie 1 17

end Cubature.Decimal
