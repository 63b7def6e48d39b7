import GradualScript.Value.Basic

/-!
# Values and host types

A host program hands data to the language and takes data back. Handing over always
works (`Value.ofHost`): every host type belongs to one kind of value. Taking back
(`Value.toHost`) works only for a value of that kind, and otherwise fails with both
type names.
-/

set_option autoImplicit false

namespace GradualScript

/-- The host types that values are exchanged with. A text can be taken over or only
looked at; a number and a truth value are copied. -/
inductive HostType where
  | text
  | textView
  | number
  | boolean
deriving DecidableEq

namespace HostType

def name : HostType → String
  | .text => "String"
  | .textView => "&str"
  | .number => "f64"
  | .boolean => "bool"

def Carrier : HostType → Type
  | .text => String
  | .textView => String
  | .number => Number
  | .boolean => Bool

end HostType

/-- A value was asked for as a host type that does not fit its kind. -/
structure ConversionError where
  found : Primitive
  wanted : HostType
deriving DecidableEq

def ConversionError.message (e : ConversionError) : String :=
  "Can't convert builtin type '" ++ e.found.name ++ "' to rust type '" ++ e.wanted.name ++ "'"

namespace Value

def ofHost : (host : HostType) → host.Carrier → Value
  | .text, s => .text s
  | .textView, s => .text s
  | .number, x => .number x
  | .boolean, b => .boolean b

/-- The host datum in a value, if the value is of the kind that the host type needs. -/
def toHost : (host : HostType) → Value → Except ConversionError host.Carrier
  | .text, .text s => .ok s
  | .textView, .text s => .ok s
  | .number, .number x => .ok x
  | .boolean, .boolean b => .ok b
  | host, v => .error ⟨v.kind, host⟩

end Value

end GradualScript
