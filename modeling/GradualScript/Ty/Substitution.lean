import GradualScript.Ty.Basic

/-!
# Replacing names in types

`Ty.substitute f` puts `f name` in the place of every name in a type and leaves the
rest of its structure as it is.
-/

set_option autoImplicit false

namespace GradualScript

namespace Ty

mutual

def substitute (f : String → Ty) : Ty → Ty
  | .primitive kind => .primitive kind
  | .array element => .array (substitute f element)
  | .table key value => .table (substitute f key) (substitute f value)
  | .function params result => .function (substituteEach f params) (substitute f result)
  | .custom name => f name

def substituteEach (f : String → Ty) : List Ty → List Ty
  | [] => []
  | a :: as => substitute f a :: substituteEach f as

end

end Ty

end GradualScript
