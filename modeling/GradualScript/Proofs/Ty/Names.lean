import GradualScript.Ty.Substitution

/-!
# The names in a type

`Ty.names` lists the names that occur in a type. Replacing names leaves nothing else of a
type open: the names of the new type are those of the replacements (`Ty.names_substitute`),
replacements that agree on the names of a type give the same type
(`Ty.substitute_congr`), and a type stays as it is exactly if each of its names is
replaced by itself (`Ty.substitute_eq_self_iff`).

A vocabulary is a property of names. Whether the names of a type all have it is a matter of
the components of the type (`Ty.Within`).

A name is compatible with nothing but itself, so a type is compatible with what
replacements make of it only if they leave it as it is (`Ty.compatible_substitute_iff`).
-/

set_option autoImplicit false

namespace GradualScript

namespace Ty

mutual

/-- The names that occur in a type, at any depth, from left to right. -/
def names : Ty → List String
  | .primitive _ => []
  | .array element => names element
  | .table key value => names key ++ names value
  | .function params result => namesEach params ++ names result
  | .custom name => [name]

def namesEach : List Ty → List String
  | [] => []
  | a :: as => names a ++ namesEach as

end

/-- To replace the names in a list of types is to replace them in each. -/
theorem substituteEach_eq_map (f : String → Ty) (as : List Ty) :
    substituteEach f as = as.map (substitute f) := by
  induction as with
  | nil => rfl
  | cons a as ih => rw [substituteEach, ih, List.map_cons]

mutual

/-- The names in a type whose names have been replaced are those of the replacements, in order. -/
theorem names_substitute (f : String → Ty) :
    ∀ a : Ty, (a.substitute f).names = a.names.flatMap fun name => (f name).names
  | .primitive _ => rfl
  | .array a => names_substitute f a
  | .table k v => by
    rw [substitute, names, names_substitute f k, names_substitute f v, names,
      List.flatMap_append]
  | .function ps r => by
    rw [substitute, names, namesEach_substituteEach f ps, names_substitute f r, names,
      List.flatMap_append]
  | .custom name => by simp [substitute, names]

/-- The same holds of the names in a list of types. -/
theorem namesEach_substituteEach (f : String → Ty) :
    ∀ as : List Ty,
      namesEach (substituteEach f as) = (namesEach as).flatMap fun name => (f name).names
  | [] => rfl
  | a :: as => by
    rw [substituteEach, namesEach, names_substitute f a, namesEach_substituteEach f as,
      namesEach, List.flatMap_append]

end

/-- A name is in a type whose names have been replaced if it is in the replacement of one of
them. -/
theorem mem_names_substitute {f : String → Ty} {a : Ty} {name : String} :
    name ∈ (a.substitute f).names ↔ ∃ m ∈ a.names, name ∈ (f m).names := by
  rw [names_substitute, List.mem_flatMap]

mutual

/-- Two replacements that agree on the names in a type make the same of it. -/
theorem substitute_congr {f g : String → Ty} :
    ∀ a : Ty, (∀ name ∈ a.names, f name = g name) → a.substitute f = a.substitute g
  | .primitive _, _ => rfl
  | .array a, h => congrArg array (substitute_congr a h)
  | .table k v, h => by
    simp only [names, List.forall_mem_append] at h
    rw [substitute, substitute, substitute_congr k h.1, substitute_congr v h.2]
  | .function ps r, h => by
    simp only [names, List.forall_mem_append] at h
    rw [substitute, substitute, substituteEach_congr ps h.1, substitute_congr r h.2]
  | .custom name, h => h name (List.mem_singleton_self name)

/-- Two replacements that agree on the names in a list of types make the same of it. -/
theorem substituteEach_congr {f g : String → Ty} :
    ∀ as : List Ty, (∀ name ∈ namesEach as, f name = g name) →
      substituteEach f as = substituteEach g as
  | [], _ => rfl
  | a :: as, h => by
    simp only [namesEach, List.forall_mem_append] at h
    rw [substituteEach, substituteEach, substitute_congr a h.1, substituteEach_congr as h.2]

end

/-- Nothing but the same name is compatible with a name. -/
theorem compatible_custom_iff {name : String} {b : Ty} :
    (custom name).compatible b = true ↔ b = .custom name := by
  cases b with
  | custom other => rw [compatible, beq_iff_eq, custom.injEq, eq_comm]
  | _ => simp [compatible]

mutual

/-- A type is compatible with what replacements make of it exactly if they replace each of
its names by itself. -/
theorem compatible_substitute_iff {f : String → Ty} :
    ∀ a : Ty, a.compatible (a.substitute f) = true ↔ ∀ name ∈ a.names, f name = .custom name
  | .primitive kind => by simp [substitute, compatible, Primitive.compatible, names]
  | .array a => compatible_substitute_iff a
  | .table k v => by
    rw [substitute, compatible, Bool.and_eq_true, compatible_substitute_iff k,
      compatible_substitute_iff v, names, List.forall_mem_append]
  | .function ps r => by
    rw [substitute, compatible, Bool.and_eq_true, compatibleEach_substituteEach_iff ps,
      compatible_substitute_iff r, names, List.forall_mem_append]
  | .custom name => by
    rw [substitute, compatible_custom_iff, names, List.forall_mem_singleton]

/-- A list of types is compatible with itself after a replacement exactly if no name in it has
been replaced. -/
theorem compatibleEach_substituteEach_iff {f : String → Ty} :
    ∀ as : List Ty, compatibleEach as (substituteEach f as) = true ↔
      ∀ name ∈ namesEach as, f name = .custom name
  | [] => by simp [substituteEach, compatibleEach, namesEach]
  | a :: as => by
    rw [substituteEach, compatibleEach, Bool.and_eq_true, compatible_substitute_iff a,
      compatibleEach_substituteEach_iff as, namesEach, List.forall_mem_append]

end

mutual

/-- A type whose names are replaced by themselves stays as it is. -/
theorem substitute_custom : ∀ a : Ty, a.substitute custom = a
  | .primitive _ => rfl
  | .array a => congrArg array (substitute_custom a)
  | .table k v => by rw [substitute, substitute_custom k, substitute_custom v]
  | .function ps r => by rw [substitute, substituteEach_custom ps, substitute_custom r]
  | .custom _ => rfl

/-- A list of types whose names are replaced by themselves stays as it is. -/
theorem substituteEach_custom : ∀ as : List Ty, substituteEach custom as = as
  | [] => rfl
  | a :: as => by rw [substituteEach, substitute_custom a, substituteEach_custom as]

end

/-- A replacement leaves a type as it is exactly if it leaves each name in it. -/
theorem substitute_eq_self_iff {f : String → Ty} {a : Ty} :
    a.substitute f = a ↔ ∀ name ∈ a.names, f name = .custom name := by
  constructor
  · intro h
    rw [← compatible_substitute_iff, h]
    have hself := (compatible_substitute_iff (f := custom) a).2 fun _ _ => rfl
    rwa [substitute_custom] at hself
  · intro h
    rw [substitute_congr a h, substitute_custom]

/-- The result of replacing names is a mere name only if the type was one already. -/
theorem eq_custom_of_substitute {f : String → Ty} {a : Ty} {name : String}
    (h : a.substitute f = .custom name) : ∃ m, a = .custom m ∧ f m = .custom name := by
  cases a with
  | custom m => exact ⟨m, rfl, h⟩
  | _ => simp [substitute] at h

/-! ## Vocabularies -/

/-- Whether all names in a type satisfy `P`. -/
def Within (a : Ty) (P : String → Prop) : Prop := ∀ name ∈ a.names, P name

instance (a : Ty) (P : String → Prop) [DecidablePred P] : Decidable (a.Within P) :=
  List.decidableBAll P a.names

section Within

variable {P : String → Prop}

/-- There are no names in a primitive type. -/
@[simp] theorem within_primitive (kind : Primitive) : (primitive kind).Within P := by
  simp [Within, names]

/-- The names in an array type are those of its elements. -/
theorem within_array {element : Ty} : (array element).Within P ↔ element.Within P := Iff.rfl

/-- The names in a table type are those of its keys and its values. -/
theorem within_table {key value : Ty} :
    (table key value).Within P ↔ key.Within P ∧ value.Within P :=
  List.forall_mem_append

/-- The names in a function type are those of its parameters and its result. -/
theorem within_function {params : List Ty} {result : Ty} :
    (function params result).Within P ↔ (∀ a ∈ params, a.Within P) ∧ result.Within P := by
  have hparams : (∀ name ∈ namesEach params, P name) ↔ ∀ a ∈ params, a.Within P := by
    induction params with
    | nil => simp [namesEach]
    | cons a as ih => rw [namesEach, List.forall_mem_append, ih, List.forall_mem_cons, Within]
  rw [Within, names, List.forall_mem_append, hparams, Within]

/-- The one name in a name is the name itself. -/
theorem within_custom {name : String} : (custom name).Within P ↔ P name :=
  List.forall_mem_singleton

end Within

end Ty

end GradualScript
