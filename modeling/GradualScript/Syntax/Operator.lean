/-!
# Operators

The operators of the language and how they are written.
-/

set_option autoImplicit false

namespace GradualScript

/-- An operator between two operands. -/
inductive BinaryOp where
  | add
  | sub
  | mul
  | div
  | mod
  | pow
  | concat
  | eq
  | ne
  | lt
  | le
  | gt
  | ge
  | and
  | or
deriving DecidableEq

/-- An operator in front of one operand. -/
inductive UnaryOp where
  | negate
  | not
  | length
deriving DecidableEq

def BinaryOp.symbol : BinaryOp → String
  | .add => "+"
  | .sub => "-"
  | .mul => "*"
  | .div => "/"
  | .mod => "%"
  | .pow => "^"
  | .concat => ".."
  | .eq => "=="
  | .ne => "~="
  | .lt => "<"
  | .le => "<="
  | .gt => ">"
  | .ge => ">="
  | .and => "and"
  | .or => "or"

def UnaryOp.symbol : UnaryOp → String
  | .negate => "-"
  | .not => "not"
  | .length => "#"

end GradualScript
