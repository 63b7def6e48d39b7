/-!
# Primitive types

The five types that every other type is built from. `any` stands for a type that
is not known: it is compatible with each of the others, in both directions, which
makes compatibility of primitive types reflexive and symmetric but not transitive.
-/

set_option autoImplicit false

namespace GradualScript

/-- A type without components. -/
inductive Primitive where
  | number
  | string
  | boolean
  | nil
  | any
deriving DecidableEq

namespace Primitive

def name : Primitive → String
  | .number => "Number"
  | .string => "String"
  | .boolean => "Boolean"
  | .nil => "Nil"
  | .any => "Any"

/-- Two primitive types are compatible if they are the same or one of them is `any`. -/
def compatible (a b : Primitive) : Bool := a == b || a == any || b == any

end Primitive

end GradualScript
