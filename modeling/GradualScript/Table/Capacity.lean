/-!
# Capacities

A table has a power of two of slots and at least sixteen. It may be filled to three
quarters, where tombstones count as filled: a search ends at the latest at a slot that
is empty, so there have to be some.
-/

set_option autoImplicit false

namespace GradualScript

namespace Capacity

def initial : Nat := 16

def limit : Nat := Nat.pow 2 64

/-- The least power of two that is at least the requested and the initial capacity. -/
def round (requested : Nat) : Nat := Nat.pow 2 ((max requested initial - 1).log2 + 1)

/-- Whether so many slots in use are more than three quarters of a capacity. -/
def overloaded (used capacity : Nat) : Bool := decide (capacity * 3 < used * 4)

end Capacity

end GradualScript
