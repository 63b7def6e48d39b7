import GradualScript.Number.Basic

/-!
# Shortest decimals

The text of a number is the shortest decimal that reads back to the same number,
in positional notation. The work is split in two.

The search is exact arithmetic on natural numbers. A finite positive number is a
binary fraction `significand * 2 ^ exponent`, and the reals that round to it form
an interval around it (`Binary.admits`). Among the grids `10 ^ e`, from the
coarsest down, the first one with a point inside the interval gives the shortest
decimal; only the two grid points next to the number have to be looked at, because
the interval is convex. Of two points inside, the nearer one is taken, and the
upper one when the number lies exactly between them.

The layout (`Decimal.positional`) writes a coefficient and a power of ten without
an exponent and without a fraction part that would be zero.
-/

set_option autoImplicit false

namespace GradualScript

/-- A decimal `coefficient * 10 ^ exponent`. -/
structure Decimal where
  coefficient : Nat
  exponent : Int
deriving DecidableEq

namespace Decimal

def zeros (n : Nat) : List Char := List.replicate n '0'

/-- The decimal in positional notation: zeros fill the places up to the point on
either side, and there is a point only if digits follow it. -/
def positional (d : Decimal) : String :=
  let digits := Nat.toDigits 10 d.coefficient
  let places := (-d.exponent).toNat
  if places = 0 then
    String.ofList (digits ++ zeros d.exponent.toNat)
  else if places < digits.length then
    let whole := digits.length - places
    String.ofList (digits.take whole ++ '.' :: digits.drop whole)
  else
    String.ofList ('0' :: '.' :: (zeros (places - digits.length) ++ digits))

end Decimal

/-- A positive binary fraction `significand * 2 ^ exponent`. `narrowBelow` says that
the next smaller number is only half as far away as the next larger one, which is
so at the lower end of a binade. -/
structure Binary where
  significand : Nat
  exponent : Int
  narrowBelow : Bool
deriving DecidableEq

namespace Binary

/-- A common measure for a binary fraction and the grid `10 ^ e`: a quarter of the
fraction's last place is `unit` and a step of the grid is `step`, both as natural
numbers in the same unit. -/
structure Scale where
  unit : Nat
  step : Nat

/-- The scale on which `b` and the multiples of `10 ^ e` are natural numbers. -/
def scale (b : Binary) (e : Int) : Scale where
  unit := Nat.pow 2 (b.exponent - 2).toNat * Nat.pow 10 (-e).toNat
  step := Nat.pow 2 (2 - b.exponent).toNat * Nat.pow 10 e.toNat

/-- Whether the point `p`, on a scale with this unit, rounds to `b`. The interval
reaches half a last place to either side, a quarter below if the numbers are denser
there, and it contains its ends if the significand is even. -/
def admits (b : Binary) (unit p : Nat) : Bool :=
  let low := (4 * b.significand - if b.narrowBelow then 1 else 2) * unit
  let high := (4 * b.significand + 2) * unit
  if b.significand % 2 = 0 then decide (low ≤ p) && decide (p ≤ high)
  else decide (low < p) && decide (p < high)

/-- The multiple of `10 ^ e` that rounds to `b` and is nearest to it, if there is
one. A tie goes to the larger multiple. -/
def onGrid? (b : Binary) (e : Int) : Option Decimal :=
  let s := b.scale e
  let value := 4 * b.significand * s.unit
  let below := value / s.step
  match b.admits s.unit (below * s.step), b.admits s.unit ((below + 1) * s.step) with
  | true, true =>
    if 2 * value < (2 * below + 1) * s.step then some ⟨below, e⟩ else some ⟨below + 1, e⟩
  | true, false => some ⟨below, e⟩
  | false, true => some ⟨below + 1, e⟩
  | false, false => none

/-- The first hit on the grids `10 ^ (n + e)`, …, `10 ^ (1 + e)`, `10 ^ e`. -/
def firstOnGrids? (b : Binary) (e : Int) : Nat → Option Decimal
  | 0 => b.onGrid? e
  | n + 1 =>
    match b.onGrid? (e + (n + 1)) with
    | some d => some d
    | none => b.firstOnGrids? e n

/-- The shortest decimal that rounds to `b`. The grids run from the power of ten
just under the largest number to one finer than the least positive number, so for
a finite number the search never comes back empty. -/
def shortest (b : Binary) : Decimal := (b.firstOnGrids? (-324) 632).getD ⟨0, 0⟩

end Binary

namespace Number

/-- The magnitude of a finite number as a binary fraction. Numbers with an exponent
field of zero have no implicit leading bit. -/
def toBinary (x : Number) : Binary :=
  if x.exponentField = 0 then ⟨x.fractionField, -1074, false⟩
  else
    ⟨Nat.pow 2 52 + x.fractionField, (x.exponentField : Int) - 1075,
      x.fractionField == 0 && decide (1 < x.exponentField)⟩

/-- The text of a number: its shortest decimal behind a sign for negative numbers
and negative zero, or the name of a value that has no decimal. -/
def render (x : Number) : String :=
  if x.isNaN then "NaN"
  else
    let magnitude :=
      if x.isInfinite then "inf"
      else if x.isZero then "0"
      else x.toBinary.shortest.positional
    if x.isNegative then "-" ++ magnitude else magnitude

end Number

end GradualScript
