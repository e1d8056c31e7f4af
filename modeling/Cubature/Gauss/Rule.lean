import Cubature.Gauss.Legendre
import Cubature.Gauss.Jacobi
import Cubature.Size

/-!
# One-dimensional rules of any size

`rule` gives the `n`-point rule for the weight `(1 - x) ^ alpha` on `[-1, 1]`, after checking that
there is such a rule and that its tables fit. Exponents are words of 32 bits; where one is raised
by one to scale the weights it is read as a signed word.
-/

namespace Cubature.Gauss

open scoped Scalar

/-- The exponent `alpha + 1` of the factor two in the weights. The word `alpha` is read as signed;
the largest signed word has no successor. -/
def weightExponent (alpha : UInt32) : Except Failure Int :=
  let exponent := alpha.toInt32.toInt + 1
  if exponent < 2147483648 then .ok exponent else .error (.aborted .overflow)

/-- The `n`-point rule for the weight `(1 - x) ^ alpha`: `gauss_legendre` without an exponent, else
`gauss_jacobi`. `start n i` is where the search for the `i`-th Legendre root from above begins. -/
@[specialize]
def rule {α : Type} [Scalar α] (start : Nat → Nat → α) (limits : Limits α) (n : Nat)
    (alpha : UInt32) : Except Failure (Nodes α) :=
  if n = 0 then .error (.rejected (.invalidPointCount n))
  else
    match Size.table n with
    | .error e => .error e
    | .ok () =>
      if alpha = 0 then .ok (legendreNodes (start n) limits n)
      else
        match weightExponent alpha with
        | .error e => .error e
        | .ok exponent => .ok (jacobiNodes limits n (alpha.toNat : α) (Scalar.powerInt 2 exponent))

/-- The ratio of a circle's circumference to its diameter, rounded. -/
def pi : Float := 3.141592653589793

/-- The Chebyshev-like guess `cos (π (i + 3/4) / (n + 1/2))` for the `i`-th root from above. -/
def chebyshevStart (n i : Nat) : Float :=
  Float.cos (pi * (Float.ofNat i + 0.75) / (Float.ofNat n + 0.5))

/-- The one-dimensional rule in floating point. -/
def floatRule (limits : Limits Float) (n : Nat) (alpha : UInt32) : Except Failure (Nodes Float) :=
  rule chebyshevStart limits n alpha

end Cubature.Gauss
