import GradualScript.Ty.Basic

/-!
# The text of a type

Types are written as in messages to the user: `Array<Number>`,
`Table<String, Boolean>`, `Function(Number, Point) -> Array<Nil>`. A declared name
stands for itself.
-/

set_option autoImplicit false

namespace GradualScript

namespace Ty

mutual

def render : Ty → String
  | .primitive kind => kind.name
  | .array element => "Array<" ++ render element ++ ">"
  | .table key value => "Table<" ++ render key ++ ", " ++ render value ++ ">"
  | .function params result => "Function(" ++ renderEach params ++ ") -> " ++ render result
  | .custom name => name

/-- The texts of types with a comma and a blank between each and the next. -/
def renderEach : List Ty → String
  | [] => ""
  | [a] => render a
  | a :: b :: rest => render a ++ ", " ++ renderEach (b :: rest)

end

end Ty

end GradualScript
