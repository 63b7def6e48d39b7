import GradualScript.Number.Basic
import GradualScript.Syntax.Operator
import GradualScript.Ty.Basic

/-!
# Syntax trees

A program is a tree of nodes. A node has a form, which says what it is and holds its
children, a place in the source text, and room for a type, which is empty until the
tree has been checked.

The arguments of a call are a single node. A parser makes it a list of expressions,
but any other node may stand there and counts as a list of one.
-/

set_option autoImplicit false

namespace GradualScript

/-- A place in the source text. -/
structure Location where
  line : Nat
  column : Nat
deriving DecidableEq

def Location.start : Location := ⟨0, 0⟩

mutual

/-- A syntax tree. -/
structure Node where
  form : Form
  location : Location
  ty : Option Ty

/-- What a node is, with its children. -/
inductive Form where
  | number (x : Number)
  | text (s : String)
  | boolean (b : Bool)
  | nil
  | name (name : String)
  | binary (op : BinaryOp) (left right : Node)
  | unary (op : UnaryOp) (operand : Node)
  | list (items : List Node)
  | call (callee arguments : Node) (selfCall : Bool)
  | group (inner : Node)
  | statement (expression : Node)
  | block (items : List Node)
  | binding (name : String) (declared : Option Ty) (value : Option Node)
  | array (items : List Node)
  | table (pairs : List (Node × Node))
  | index (target key : Node)

end

namespace Node

def ofForm (form : Form) : Node := ⟨form, .start, none⟩

def moveTo (node : Node) (location : Location) : Node := { node with location := location }

/-- A call, `callee(a, b)`. In a self call, `callee:method(a, b)`, the receiver is
passed in front of the arguments without being written among them. -/
def call (callee : Node) (arguments : List Node) (selfCall : Bool) : Node :=
  ofForm (.call callee (ofForm (.list arguments)) selfCall)

end Node

end GradualScript
