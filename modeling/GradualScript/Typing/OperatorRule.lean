import GradualScript.Syntax.Operator
import GradualScript.Ty.Basic

/-!
# Rules for operators

A rule says which operand types an operator takes and what type comes out. An
operator table gives each operator a rule or none; without a rule every use of the
operator is an error.

Rules compare with `Ty.accepts`, so an operand of unknown type fits every rule.
-/

set_option autoImplicit false

namespace GradualScript

/-- What a binary operator asks of its operands. Either both must fit one given type,
or they must fit each other. -/
inductive BinaryRule where
  | uniform (operand result : Ty)
  | alike (result : Ty)
deriving DecidableEq

/-- What a unary operator asks of its operand. Either it must fit one given type, or
it must have a length: arrays, tables and everything that fits a text do. -/
inductive UnaryRule where
  | uniform (operand result : Ty)
  | sized (result : Ty)
deriving DecidableEq

/-- The type of an operation, or nothing if its operands break the rule. -/
def BinaryRule.result? (left right : Ty) : BinaryRule → Option Ty
  | .uniform operand result =>
    if operand.accepts left && operand.accepts right then some result else none
  | .alike result => if left.accepts right then some result else none

/-- Whether values of a type have a length. -/
def Ty.isSized : Ty → Bool
  | .array _ => true
  | .table _ _ => true
  | ty => Ty.string.accepts ty

/-- The type of an operation, or nothing if its operand breaks the rule. -/
def UnaryRule.result? (operandTy : Ty) : UnaryRule → Option Ty
  | .uniform operand result => if operand.accepts operandTy then some result else none
  | .sized result => if operandTy.isSized then some result else none

/-- The rules in force, one or none for each operator. -/
structure Operators where
  binary : BinaryOp → Option BinaryRule
  unary : UnaryOp → Option UnaryRule

namespace Operators

def empty : Operators where
  binary _ := none
  unary _ := none

/-- Puts a rule in force for a binary operator, in place of the one it had. -/
def setBinary (ops : Operators) (op : BinaryOp) (rule : BinaryRule) : Operators :=
  { ops with binary := fun o => if o = op then some rule else ops.binary o }

/-- Puts a rule in force for a unary operator, in place of the one it had. -/
def setUnary (ops : Operators) (op : UnaryOp) (rule : UnaryRule) : Operators :=
  { ops with unary := fun o => if o = op then some rule else ops.unary o }

/-- The language's own rules. Arithmetic is on numbers, joining on texts, and the
logical operators on truth values; numbers have an order; equality compares what is
alike; and the length operator takes what has a length. -/
def builtin : Operators where
  binary
    | .add | .sub | .mul | .div | .mod | .pow => some (.uniform .number .number)
    | .concat => some (.uniform .string .string)
    | .eq | .ne => some (.alike .boolean)
    | .lt | .le | .gt | .ge => some (.uniform .number .boolean)
    | .and | .or => some (.uniform .boolean .boolean)
  unary
    | .negate => some (.uniform .number .number)
    | .not => some (.uniform .boolean .boolean)
    | .length => some (.sized .number)

/-- The type of a binary operation, or nothing if the operator has no rule or the
operands break it. -/
def binary? (ops : Operators) (op : BinaryOp) (left right : Ty) : Option Ty :=
  (ops.binary op).bind (BinaryRule.result? left right)

/-- The type of a unary operation, or nothing if the operator has no rule or the
operand breaks it. -/
def unary? (ops : Operators) (op : UnaryOp) (operand : Ty) : Option Ty :=
  (ops.unary op).bind (UnaryRule.result? operand)

end Operators

end GradualScript
