import GradualScript.Ty.Primitive

/-!
# Types

A type is primitive, an array of elements, a table from keys to values, a function
from parameters to a result, or the name of a type declared elsewhere. Types are
compared by structure, never by identity.

`Ty.compatible` is the lattice relation: `Any` stands in for primitive types at any
depth, but not for a type with components. `Ty.accepts` is the relation that checks
go by. There a type that is `Any` as a whole is simply unknown, and passes against
everything, so that one unknown is not reported twice.
-/

set_option autoImplicit false

namespace GradualScript

/-- A static type. -/
inductive Ty where
  | primitive (kind : Primitive)
  | array (element : Ty)
  | table (key value : Ty)
  | function (params : List Ty) (result : Ty)
  | custom (name : String)

namespace Ty

abbrev number : Ty := primitive .number

abbrev string : Ty := primitive .string

abbrev boolean : Ty := primitive .boolean

abbrev nil : Ty := primitive .nil

abbrev any : Ty := primitive .any

/-! ## Structural equality -/

mutual

/-- Structural equality, decided along the structure of the first type. -/
def equal : Ty → Ty → Bool
  | .primitive a, .primitive b => a == b
  | .array a, .array b => equal a b
  | .table k v, .table k' v' => equal k k' && equal v v'
  | .function ps r, .function qs s => equalEach ps qs && equal r s
  | .custom a, .custom b => a == b
  | _, _ => false

def equalEach : List Ty → List Ty → Bool
  | [], [] => true
  | a :: as, b :: bs => equal a b && equalEach as bs
  | _, _ => false

end

mutual

/-- The decision is right: types are structurally equal exactly when they are equal. -/
theorem equal_iff : ∀ a b : Ty, equal a b = true ↔ a = b
  | .primitive _, b => by cases b <;> simp [equal]
  | .array a, b => by
    cases b with
    | array b => simp [equal, equal_iff a b]
    | _ => simp [equal]
  | .table k v, b => by
    cases b with
    | table k' v' => simp [equal, equal_iff k k', equal_iff v v']
    | _ => simp [equal]
  | .function ps r, b => by
    cases b with
    | function qs s => simp [equal, equalEach_iff ps qs, equal_iff r s]
    | _ => simp [equal]
  | .custom _, b => by cases b <;> simp [equal]

/-- The comparison of lists of types decides whether they are equal. -/
theorem equalEach_iff : ∀ as bs : List Ty, equalEach as bs = true ↔ as = bs
  | [], bs => by cases bs <;> simp [equalEach]
  | a :: as, bs => by
    cases bs with
    | nil => simp [equalEach]
    | cons b bs => simp [equalEach, equal_iff a b, equalEach_iff as bs]

end

instance : DecidableEq Ty := fun a b => decidable_of_iff _ (equal_iff a b)

/-! ## Compatibility -/

mutual

/-- Structural compatibility. Primitive types are compatible as `Primitive.compatible`
says, types with components if they have the same shape and compatible components,
and names only with themselves. -/
def compatible : Ty → Ty → Bool
  | .primitive a, .primitive b => a.compatible b
  | .array a, .array b => compatible a b
  | .table k v, .table k' v' => compatible k k' && compatible v v'
  | .function ps r, .function qs s => compatibleEach ps qs && compatible r s
  | .custom a, .custom b => a == b
  | _, _ => false

/-- Compatibility of lists of types: as many on either side, and compatible in pairs. -/
def compatibleEach : List Ty → List Ty → Bool
  | [], [] => true
  | a :: as, b :: bs => compatible a b && compatibleEach as bs
  | _, _ => false

end

def isAny : Ty → Bool
  | .primitive .any => true
  | _ => false

/-- The test for `Any` decides whether a type is it. -/
theorem isAny_iff {a : Ty} : a.isAny = true ↔ a = .any := by
  unfold isAny
  split
  · simp
  · simp_all

/-- Compatibility as checks enforce it: a type that is `Any` as a whole passes, on
either side. -/
def accepts (expected actual : Ty) : Bool :=
  expected.isAny || actual.isAny || expected.compatible actual

end Ty

end GradualScript
