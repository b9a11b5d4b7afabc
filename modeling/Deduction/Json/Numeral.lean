/-!
# Numbers of a JSON text

A number is held with a mantissa of 64 bits, which takes in the digits of the text as long as they
fit. From then on a digit before the point only counts as a power of ten, and a digit behind it is
left out (`Numeral.ofDigits`).

Not every number that is held in this way is accepted, only one that double precision can hold too
(`Numeral.isFinite`). A natural number has double precision if it is a number of at most 53 bits
times a power of two. Any other number is brought to double precision by taking the nearest such
number, and of two that are equally near the one whose last bit is zero.
-/

namespace Deduction

/-! ## Double precision -/

namespace Double

/-- The distance between the numbers of double precision around `n`. -/
def spacing (n : Nat) : Nat := Nat.pow 2 (n.log2 + 1 - 53)

/-- The number of double precision nearest to `n`. -/
def nearest (n : Nat) : Nat :=
  let below := n / spacing n
  let rest := n % spacing n
  if 2 * rest < spacing n || (2 * rest = spacing n && below % 2 = 0) then below * spacing n
  else (below + 1) * spacing n

/-- Halfway from the largest number of double precision to the next one, were its power of two not
too large. From here on a result is infinite. -/
def bound : Nat := Nat.pow 2 1024 - Nat.pow 2 970

/-- The product of `m` and `n`, each brought to double precision first, is not infinite. -/
def hasFiniteProduct (m n : Nat) : Bool := nearest m * nearest n < bound

end Double

/-! ## Mantissa and exponent -/

/-- A number with its mantissa and the power of ten that scales it, and whether it is a plain
integer: one that was written with neither point nor exponent and is held in full. -/
structure Numeral where
  negative : Bool
  mantissa : Nat
  exponent : Int
  integral : Bool
deriving DecidableEq

namespace Numeral

def ofNat (n : Nat) : Numeral := ⟨false, n, 0, true⟩

/-- One more than the largest index, 64 bits wide. -/
def indexBound : Nat := Nat.pow 2 64

/-- The natural number below `indexBound` that is written as a plain integer without a sign. -/
def index? (n : Numeral) : Option Nat :=
  if n.integral && !n.negative && n.mantissa < indexBound then some n.mantissa else none

/-- The number `n` with digits written behind it, as long as it stays below `indexBound`, and the
digits that are left. -/
def extend (n : Nat) : List Nat → Nat × List Nat
  | [] => (n, [])
  | d :: rest =>
    if 10 * n + d < indexBound then extend (10 * n + d) rest else (n, d :: rest)

/-- The number with the digits `whole` before the point, the digits `fraction` behind it if there
is a point, and an exponent if there is one. -/
def ofDigits (negative : Bool) (whole : List Nat) (fraction : Option (List Nat))
    (exponent : Option Int) : Numeral :=
  let behind := fraction.getD []
  let (upper, beyond) := extend 0 whole
  let (mantissa, dropped) := extend upper behind
  { negative := negative
    mantissa := mantissa
    exponent := exponent.getD 0 + beyond.length - (behind.length - dropped.length : Nat)
    integral := fraction.isNone && exponent.isNone && beyond.isEmpty }

/-- The largest power of ten that is not infinite in double precision. -/
def largestPower : Nat := 308

/-- Double precision can hold the number: the product of its mantissa and its power of ten is not
infinite. A negative power of ten only makes it smaller. -/
def isFinite (n : Numeral) : Bool :=
  n.mantissa = 0 || n.exponent < 0 ||
    (n.exponent ≤ largestPower
      && Double.hasFiniteProduct n.mantissa (Nat.pow 10 n.exponent.toNat))

end Numeral

end Deduction
