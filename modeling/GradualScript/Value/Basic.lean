import GradualScript.Number.Decimal
import GradualScript.Ty.Primitive

/-!
# Values

A value is a number, a text, a truth value or nil. There are three ways to compare
two of them. Lean's own equality tells everything apart, bit patterns of numbers
included. `Value.same` is equality as a running program sees it, and is what keys
of a table are compared by: it asks for the same kind and then compares numbers
numerically and texts byte for byte. The boolean equality `==` compares component
by component, numbers again numerically.
-/

set_option autoImplicit false

namespace GradualScript

/-- A datum of a running program. -/
inductive Value where
  | number (x : Number)
  | text (s : String)
  | boolean (b : Bool)
  | nil
deriving DecidableEq

namespace Value

/-- Runtime equality: the kinds must match, numbers compare numerically and texts
by the bytes of their UTF-8 encoding. -/
def same : Value → Value → Bool
  | .number x, .number y => x.equal y
  | .text s, .text t => s.toUTF8.data == t.toUTF8.data
  | .boolean b, .boolean c => b == c
  | .nil, .nil => true
  | _, _ => false

/-- Equality component by component: the same constructor around equal components,
where numbers are equal numerically. -/
def equal : Value → Value → Bool
  | .number x, .number y => x.equal y
  | .text s, .text t => s == t
  | .boolean b, .boolean c => b == c
  | .nil, .nil => true
  | _, _ => false

instance : BEq Value := ⟨equal⟩

/-- The primitive type of a value. It is never `any`. -/
def kind : Value → Primitive
  | .number _ => .number
  | .text _ => .string
  | .boolean _ => .boolean
  | .nil => .nil

/-- Whether the value is the number that equals nothing, and so cannot be found
again as a key. -/
def isNaN : Value → Bool
  | .number x => x.isNaN
  | _ => false

def render : Value → String
  | .number x => x.render
  | .text s => s
  | .boolean true => "true"
  | .boolean false => "false"
  | .nil => "nil"

end Value

end GradualScript
