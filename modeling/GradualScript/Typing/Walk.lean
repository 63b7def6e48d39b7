import GradualScript.Typing.Scope
import GradualScript.Typing.Verdict

/-!
# Walks

A check walks over a tree. On its way it reads and changes the scope and reports
diagnostics, but never stops. `Walk` is that kind of computation: it starts from a
scope and ends with a result, a scope, and the diagnostics reported on the way, in
order. A walk does not see what was reported before it, so what it reports depends on
the scope alone.
-/

set_option autoImplicit false

namespace GradualScript

/-- How a walk ends. -/
structure Outcome (α : Type) where
  result : α
  scope : Scope
  reports : List Diagnostic

def Walk (α : Type) : Type := Scope → Outcome α

namespace Walk

def run {α : Type} (w : Walk α) (s : Scope) : Outcome α := w s

protected def pure {α : Type} (a : α) : Walk α := fun s => ⟨a, s, []⟩

protected def bind {α β : Type} (w : Walk α) (f : α → Walk β) : Walk β := fun s =>
  let first := w.run s
  let second := (f first.result).run first.scope
  ⟨second.result, second.scope, first.reports ++ second.reports⟩

instance : Monad Walk where
  pure := Walk.pure
  bind := Walk.bind

/-- A walk that only gives a result leaves the scope as it is and reports nothing. -/
@[simp] theorem run_pure {α : Type} (a : α) (s : Scope) : (pure a : Walk α).run s = ⟨a, s, []⟩ :=
  rfl

/-- What two walks in a row report is what the first reports and then what the second
reports, from where the first one ended. -/
@[simp] theorem run_bind {α β : Type} (w : Walk α) (f : α → Walk β) (s : Scope) :
    (w >>= f).run s =
      let first := w.run s
      let second := (f first.result).run first.scope
      ⟨second.result, second.scope, first.reports ++ second.reports⟩ :=
  rfl

def report (reports : List Diagnostic) : Walk Unit := fun s => ⟨(), s, reports⟩

/-- Reports what a verdict holds against a node and gives its type. -/
def settle (verdict : Verdict) : Walk Ty := fun s => ⟨verdict.ty, s, verdict.reports⟩

/-- A type, if there is one, with its names expanded in the scope at hand. -/
def resolve? (ty : Option Ty) : Walk (Option Ty) := fun s => ⟨ty.map s.resolve, s, []⟩

end Walk

end GradualScript
