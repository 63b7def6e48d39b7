import GradualScript.Typing.Checker

/-!
# Contexts

A context is what lasts over the checks of one compilation unit: the names bound so
far, the diagnostics recorded so far and their number, and whether checks are strict
about names. Diagnostics are only ever added.
-/

set_option autoImplicit false

namespace GradualScript

/-- The state of checking one compilation unit. The number of errors is kept along
with the diagnostics. -/
structure Context where
  strict : Bool
  scope : Scope
  diagnostics : List Diagnostic
  errorCount : Nat

namespace Context

def init (strict : Bool) : Context := ⟨strict, .empty, [], 0⟩

def passed (ctx : Context) : Bool := ctx.errorCount == 0

def lookup? (ctx : Context) (name : String) : Option Ty := ctx.scope.lookup? name

def isDeclared (ctx : Context) (name : String) : Bool := (ctx.lookup? name).isSome

def resolve (ctx : Context) (ty : Ty) : Ty := ctx.scope.resolve ty

/-- Binds a name to a type and gives the type it was bound to. Here a second binding is
no error. -/
def declare (ctx : Context) (name : String) (ty : Ty) : Option Ty × Context :=
  (ctx.lookup? name, { ctx with scope := ctx.scope.declare name ty })

def record (ctx : Context) (d : Diagnostic) : Context :=
  { ctx with diagnostics := ctx.diagnostics ++ [d], errorCount := ctx.errorCount + 1 }

def checker (ctx : Context) (ops : Operators) : Checker := ⟨ctx.strict, ops⟩

/-- Checks a tree. The names it binds stay bound, and what it reports is recorded. -/
def check (ctx : Context) (ops : Operators) (node : Node) : Typed Node × Context :=
  let outcome := ((ctx.checker ops).check node).run ctx.scope
  (outcome.result, outcome.reports.foldl record { ctx with scope := outcome.scope })

end Context

end GradualScript
