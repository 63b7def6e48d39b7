import GradualScript.Ty.Substitution

/-!
# Scopes

A scope binds names to types. Variables and named types share one space of names: a
name in a type stands for whatever type the name is bound to.

`Scope.resolve` replaces the names in a type by what they are bound to, over and over.
A name that leads back to itself is cut: below a name that is being expanded, the same
name stays as it is. Expansion therefore goes on in the scope without that name, which
has fewer bindings, and so it ends for every scope, whatever cycles it holds.
-/

set_option autoImplicit false

namespace GradualScript

/-- Names bound to types. The first binding of a name is the one in force. -/
structure Scope where
  bindings : List (String × Ty)
deriving DecidableEq

namespace Scope

def empty : Scope := ⟨[]⟩

def size (s : Scope) : Nat := s.bindings.length

def lookup? (s : Scope) (name : String) : Option Ty := s.bindings.lookup name

def erase (s : Scope) (name : String) : Scope := ⟨s.bindings.filter fun b => b.1 != name⟩

/-- The scope with a name bound to a type, in place of what it was bound to. -/
def declare (s : Scope) (name : String) (ty : Ty) : Scope :=
  ⟨(name, ty) :: (s.erase name).bindings⟩

/-- After a name has been removed, it is not bound, and every other name is as before. -/
theorem lookup?_erase (s : Scope) (name other : String) :
    (s.erase name).lookup? other = if other = name then none else s.lookup? other := by
  obtain ⟨bindings⟩ := s
  simp only [erase, lookup?]
  induction bindings with
  | nil => simp
  | cons b rest ih =>
    obtain ⟨key, ty⟩ := b
    by_cases hk : key = name
    · rw [List.filter_cons_of_neg (by simp [hk]), ih]
      by_cases ho : other = name
      · simp [ho]
      · have hne : (other == key) = false := by simp [hk, ho]
        simp [ho, List.lookup_cons, hne]
    · rw [List.filter_cons_of_pos (by simp [hk])]
      by_cases ho : other = key
      · simp [ho, hk]
      · have hne : (other == key) = false := by simp [ho]
        simp only [List.lookup_cons, hne, ih]

/-- After a name has been declared, it has its new type, and every other name is as
before. -/
theorem lookup?_declare (s : Scope) (name other : String) (ty : Ty) :
    (s.declare name ty).lookup? other = if other = name then some ty else s.lookup? other := by
  by_cases ho : other = name
  · simp [declare, lookup?, ho]
  · have hne : (other == name) = false := by simp [ho]
    have hrest := lookup?_erase s name other
    simp only [lookup?, ho, if_false] at hrest
    simp only [declare, lookup?, List.lookup_cons, hne, hrest, ho, if_false]

/-- What is looked up is one of the bindings. -/
theorem mem_bindings {s : Scope} {name : String} {ty : Ty} (h : s.lookup? name = some ty) :
    (name, ty) ∈ s.bindings := by
  obtain ⟨l₁, l₂, hs, -⟩ := List.lookup_eq_some_iff.1 h
  simp [hs]

/-- A scope is smaller without a name that is bound in it, so the expansion of names ends. -/
theorem size_erase_lt {s : Scope} {name : String} {ty : Ty} (h : s.lookup? name = some ty) :
    (s.erase name).size < s.size :=
  List.length_filter_lt_length_iff_exists.2 ⟨_, mem_bindings h, by simp⟩

/-- What a name stands for: the resolved type it is bound to, or the name itself if it
is not bound. Within that type the name is no longer expanded. -/
def expand (s : Scope) (name : String) : Ty :=
  match _h : s.lookup? name with
  | none => .custom name
  | some ty => ty.substitute fun n => (s.erase name).expand n
termination_by s.size
decreasing_by exact size_erase_lt _h

/-- A name that is not bound expands to itself. -/
theorem expand_of_unbound {s : Scope} {name : String} (h : s.lookup? name = none) :
    s.expand name = .custom name := by
  rw [expand]
  split
  · rfl
  · rename_i hsome
    rw [h] at hsome
    contradiction

/-- A name that is bound stands for its type, in which it is not replaced again. -/
theorem expand_of_bound {s : Scope} {name : String} {ty : Ty} (h : s.lookup? name = some ty) :
    s.expand name = ty.substitute (s.erase name).expand := by
  rw [expand]
  split
  · rename_i hnone
    rw [h] at hnone
    contradiction
  · rename_i found hsome
    rw [h] at hsome
    rw [Option.some.inj hsome]

def resolve (s : Scope) (ty : Ty) : Ty := ty.substitute s.expand

end Scope

end GradualScript
