/-!
# Diagnostics

What a check reports. A diagnostic holds texts of types and operators, not types: it
is made for a reader, and may outlive the scope that gave the types their meaning.
-/

set_option autoImplicit false

namespace GradualScript

/-- A fault found by a check. -/
inductive Diagnostic where
  | mismatch (expected actual : String)
  | unresolved (name : String)
  | redeclared (name previous current : String)
  | operator (symbol operand : String)
  | notCallable (ty : String)
  | arity (expected actual : Nat)
  | notIndexable (ty : String)
deriving DecidableEq

def Diagnostic.message : Diagnostic → String
  | .mismatch expected actual => "type mismatch: expected " ++ expected ++ ", got " ++ actual
  | .unresolved name => "could not find identifier '" ++ name ++ "'"
  | .redeclared name previous current =>
    "'" ++ name ++ "' redeclared as " ++ current ++ " (was " ++ previous ++ ")"
  | .operator symbol operand => "operator '" ++ symbol ++ "' can't be applied to " ++ operand
  | .notCallable ty => ty ++ " is not callable"
  | .arity expected actual =>
    "function takes " ++ toString expected ++ " arguments but got " ++ toString actual
  | .notIndexable ty => ty ++ " can't be indexed"

end GradualScript
