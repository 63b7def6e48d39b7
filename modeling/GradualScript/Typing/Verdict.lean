import GradualScript.Ty.Render
import GradualScript.Typing.Diagnostic
import GradualScript.Typing.OperatorRule

/-!
# Verdicts

The rules of the checker that look at types alone. Each takes the types of a node's
children and gives a verdict: the type of the node and what there is to report about
it. A node that breaks a rule gets the type `Any`, which passes every later check, so
that one fault is reported once.
-/

set_option autoImplicit false

namespace GradualScript

/-- A type, and what is reported along with it. -/
structure Verdict where
  ty : Ty
  reports : List Diagnostic
deriving DecidableEq

/-- Reports a mismatch unless the expected type accepts the actual one. -/
def Ty.expect (expected actual : Ty) : List Diagnostic :=
  if expected.accepts actual then [] else [.mismatch expected.render actual.render]

def Ty.expect? (expected : Option Ty) (actual : Ty) : List Diagnostic :=
  match expected with
  | none => []
  | some ty => ty.expect actual

/-- Compares types in pairs, as long as there are both an expected and an actual one. -/
def Ty.expectEach : List Ty → List Ty → List Diagnostic
  | expected :: es, actual :: as => expected.expect actual ++ expectEach es as
  | _, _ => []

namespace Verdict

/-- An operation has the type its rule gives, or breaks the rule. An operator without
a rule cannot be applied to anything. -/
def ofBinary (ops : Operators) (op : BinaryOp) (left right : Ty) : Verdict :=
  match ops.binary? op left right with
  | some result => ⟨result, []⟩
  | none => ⟨.any, [.operator op.symbol (left.render ++ " and " ++ right.render)]⟩

def ofUnary (ops : Operators) (op : UnaryOp) (operand : Ty) : Verdict :=
  match ops.unary? op operand with
  | some result => ⟨result, []⟩
  | none => ⟨.any, [.operator op.symbol operand.render]⟩

/-- The parameters that the written arguments of a call stand for. The first parameter
of a self call is taken by the receiver. -/
def openParams (params : List Ty) (selfCall : Bool) : List Ty :=
  if selfCall then params.drop 1 else params

/-- A call has the result type of the function called, even if the arguments do not
fit. Their number is compared first, then each argument that has a parameter. -/
def ofCall (callee : Ty) (arguments : List Ty) (selfCall : Bool) : Verdict :=
  match callee with
  | .function params result =>
    let expected := openParams params selfCall
    let count : List Diagnostic :=
      if expected.length = arguments.length then []
      else [.arity expected.length arguments.length]
    ⟨result, count ++ Ty.expectEach expected arguments⟩
  | .primitive .any => ⟨.any, []⟩
  | ty => ⟨.any, [.notCallable ty.render]⟩

/-- A table is indexed by its key type and an array by numbers. What comes out is the
table's value type or the array's element type, even if the key does not fit. -/
def ofIndex (target key : Ty) : Verdict :=
  match target with
  | .table expected value => ⟨value, expected.expect key⟩
  | .array element => ⟨element, Ty.number.expect key⟩
  | .primitive .any => ⟨.any, []⟩
  | ty => ⟨.any, [.notIndexable ty.render]⟩

/-- A variable has the type of its annotation, which its value must fit, or else the
type of its value. With neither nothing is known about it. -/
def ofBinding : (declared value : Option Ty) → Verdict
  | some expected, some actual => ⟨expected, expected.expect actual⟩
  | some expected, none => ⟨expected, []⟩
  | none, some actual => ⟨actual, []⟩
  | none, none => ⟨.any, []⟩

end Verdict

end GradualScript
