import GradualScript.Syntax.Node
import GradualScript.Typing.Walk

/-!
# The checker

`Checker.check` walks over a tree depth first, gives every node a type, and writes the
type into the node. Types that were written there before are not looked at.

Nodes are visited in the order in which a program would evaluate them: the left
operand before the right one, the callee before its arguments, the target of an index
before its key, and the value of a variable before the variable is bound. A table
constructor visits all its keys before its values.

The items of an array constructor, and likewise the keys and the values of a table
constructor, are held against the first of them, each as soon as it has been visited.
-/

set_option autoImplicit false

namespace GradualScript

/-- What a check goes by: whether it is strict about names, and the rules for
operators. -/
structure Checker where
  strict : Bool
  operators : Operators

/-- Something together with the type that was found for it. -/
structure Typed (α : Type) where
  item : α
  ty : Ty

/-- The type of the first item, which stands for all of them. Nothing is known if
there are none. -/
def Typed.headTy {α : Type} : List (Typed α) → Ty
  | [] => .any
  | first :: _ => first.ty

/-- The two sides of the pairs in a table constructor. -/
inductive Side where
  | key
  | value
deriving DecidableEq

namespace Checker

/-- The type of a variable: what it is bound to, resolved where it is used. A strict
check reports a name that is not bound. -/
def lookupName (c : Checker) (name : String) : Walk Ty := fun s =>
  match s.lookup? name with
  | some ty => ⟨s.resolve ty, s, []⟩
  | none => ⟨.any, s, if c.strict then [.unresolved name] else []⟩

/-- Binds a variable, over a binding that it may have had. A strict check reports the
second binding of a name. -/
def declareName (c : Checker) (name : String) (ty : Ty) : Walk Unit := fun s =>
  let reports : List Diagnostic :=
    match s.lookup? name with
    | some previous => if c.strict then [.redeclared name previous.render ty.render] else []
    | none => []
  ⟨(), s.declare name ty, reports⟩

/-- Settles the type of a variable against its declared type, which is resolved after the
value has been visited, and binds the variable. -/
def bindName (c : Checker) (name : String) (declared value : Option Ty) : Walk Unit := do
  let expected ← Walk.resolve? declared
  let ty ← Walk.settle (.ofBinding expected value)
  c.declareName name ty

mutual

/-- Checks a tree: finds the type of its root, after those of all nodes below, and
writes it there. -/
def check (c : Checker) : Node → Walk (Typed Node)
  | ⟨form, location, _⟩ => do
    let inferred ← c.infer form
    return ⟨⟨inferred.item, location, some inferred.ty⟩, inferred.ty⟩

def infer (c : Checker) : Form → Walk (Typed Form)
  | .number x => return ⟨.number x, .number⟩
  | .text s => return ⟨.text s, .string⟩
  | .boolean b => return ⟨.boolean b, .boolean⟩
  | .nil => return ⟨.nil, .nil⟩
  | .name name => do
    let ty ← c.lookupName name
    return ⟨.name name, ty⟩
  | .binary op left right => do
    let l ← c.check left
    let r ← c.check right
    let ty ← Walk.settle (.ofBinary c.operators op l.ty r.ty)
    return ⟨.binary op l.item r.item, ty⟩
  | .unary op operand => do
    let o ← c.check operand
    let ty ← Walk.settle (.ofUnary c.operators op o.ty)
    return ⟨.unary op o.item, ty⟩
  | .list items => do
    let checked ← c.checkEach items
    return ⟨.list (checked.map (·.item)), .nil⟩
  | .call callee arguments selfCall => do
    let f ← c.check callee
    let args ← c.checkArguments arguments
    let ty ← Walk.settle (.ofCall f.ty args.2 selfCall)
    return ⟨.call f.item args.1 selfCall, ty⟩
  | .group inner => do
    let i ← c.check inner
    return ⟨.group i.item, i.ty⟩
  | .statement expression => do
    let e ← c.check expression
    return ⟨.statement e.item, .nil⟩
  | .block items => do
    let checked ← c.checkEach items
    return ⟨.block (checked.map (·.item)), .nil⟩
  | .binding name declared none => do
    c.bindName name declared none
    return ⟨.binding name declared none, .nil⟩
  | .binding name declared (some value) => do
    let v ← c.check value
    c.bindName name declared (some v.ty)
    return ⟨.binding name declared (some v.item), .nil⟩
  | .array items => do
    let checked ← c.checkAlike none items
    return ⟨.array (checked.map (·.item)), .array (Typed.headTy checked)⟩
  | .table pairs => do
    let keys ← c.checkSide .key none pairs
    let values ← c.checkSide .value none pairs
    return ⟨.table ((keys.map (·.item)).zip (values.map (·.item))),
      .table (Typed.headTy keys) (Typed.headTy values)⟩
  | .index target key => do
    let t ← c.check target
    let k ← c.check key
    let ty ← Walk.settle (.ofIndex t.ty k.ty)
    return ⟨.index t.item k.item, ty⟩

def checkEach (c : Checker) : List Node → Walk (List (Typed Node))
  | [] => return []
  | node :: rest => do
    let n ← c.check node
    let ns ← c.checkEach rest
    return n :: ns

/-- Checks the arguments of a call and gives their types. The items of a list are the
arguments, and the list itself has the type `Nil`; any other node is one argument. -/
def checkArguments (c : Checker) : Node → Walk (Node × List Ty)
  | ⟨.list items, location, _⟩ => do
    let checked ← c.checkEach items
    return (⟨.list (checked.map (·.item)), location, some .nil⟩, checked.map (·.ty))
  | ⟨form, location, _⟩ => do
    let inferred ← c.infer form
    return (⟨inferred.item, location, some inferred.ty⟩, [inferred.ty])

/-- Checks trees in order and holds each against the expected type, which the first
tree sets if there is none yet. -/
def checkAlike (c : Checker) (expected : Option Ty) : List Node → Walk (List (Typed Node))
  | [] => return []
  | node :: rest => do
    let n ← c.check node
    Walk.report (Ty.expect? expected n.ty)
    let ns ← c.checkAlike (some (expected.getD n.ty)) rest
    return n :: ns

/-- Checks the keys or the values of a table constructor like the items of an array. -/
def checkSide (c : Checker) (side : Side) (expected : Option Ty) :
    List (Node × Node) → Walk (List (Typed Node))
  | [] => return []
  | (key, value) :: rest => do
    let n ← match side with
      | .key => c.check key
      | .value => c.check value
    Walk.report (Ty.expect? expected n.ty)
    let ns ← c.checkSide side (some (expected.getD n.ty)) rest
    return n :: ns

end

end Checker

end GradualScript
