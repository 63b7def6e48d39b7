/-!
# Numbers

A number of the language is a 64-bit binary floating-point number. It is held as
its bit pattern, so that two numbers can be told apart even where the language
itself compares them equal. The fields of the pattern are read off in `Nat`,
where the sign is the top bit, then come eleven bits of exponent and fifty-two
bits of fraction.

`Number.equal` is the comparison that programs see: not-a-number equals nothing,
and the two zeros equal each other. `Number.canonical` picks one bit pattern for
each class of equal numbers, and `Number.octets` spells it out for hashing.
-/

set_option autoImplicit false

namespace GradualScript

/-- A 64-bit binary floating-point number, as its bit pattern. -/
structure Number where
  bits : UInt64
deriving DecidableEq

namespace Number

def word (x : Number) : Nat := x.bits.toNat

/-- Whether the sign bit is set. It is set for `-0` too. -/
def isNegative (x : Number) : Bool := decide (Nat.pow 2 63 ≤ x.word)

def magnitude (x : Number) : Nat := x.word % Nat.pow 2 63

def exponentField (x : Number) : Nat := x.magnitude / Nat.pow 2 52

def fractionField (x : Number) : Nat := x.magnitude % Nat.pow 2 52

/-- The magnitude of the infinities. Every larger one belongs to a not-a-number. -/
def infiniteMagnitude : Nat := 2047 * Nat.pow 2 52

/-- Whether the pattern is one of the many that stand for not-a-number. -/
def isNaN (x : Number) : Bool := decide (infiniteMagnitude < x.magnitude)

def isInfinite (x : Number) : Bool := x.magnitude == infiniteMagnitude

def isZero (x : Number) : Bool := x.magnitude == 0

def zero : Number := ⟨0⟩

/-- Numeric equality. Not-a-number differs from every number, itself included;
the two zeros are equal; any other two numbers are equal if their patterns are. -/
def equal (x y : Number) : Bool :=
  !x.isNaN && !y.isNaN && (x.bits == y.bits || (x.isZero && y.isZero))

/-- The number itself, but positive zero for both zeros. Equal numbers have the
same canonical form. -/
def canonical (x : Number) : Number := if x.isZero then zero else x

/-- The eight bytes of the bit pattern, the least significant one first. -/
def octets (x : Number) : List UInt8 :=
  (List.range 8).map fun i => UInt8.ofNat (x.word / Nat.pow 256 i)

end Number

end GradualScript
