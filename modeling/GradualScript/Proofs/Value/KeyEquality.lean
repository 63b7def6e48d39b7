import GradualScript.Value.Hash

/-!
# Keys that are the same

`Value.same`, the relation that keys are compared by, is symmetric and transitive. It
fails to be reflexive only at not-a-number (`Value.same_self`). Keys that are the same
have the same hash (`Value.hash_eq_of_same`), so a search for either of them starts at
the same slot (`Value.slotIndex_eq_of_same`), and that slot exists
(`Value.slotIndex_lt`).
-/

set_option autoImplicit false

namespace GradualScript

namespace Number

/-- A number equals itself unless it is not-a-number. -/
theorem equal_self (x : Number) : x.equal x = !x.isNaN := by
  simp [equal]

/-- What numeric equality says about the two patterns: neither is not-a-number, and
they are the same pattern or both zero. -/
theorem equal_iff (x y : Number) :
    x.equal y = true ↔
      x.isNaN = false ∧ y.isNaN = false ∧ (x = y ∨ x.isZero = true ∧ y.isZero = true) := by
  cases x
  cases y
  simp [equal, and_assoc]

/-- Numeric equality is symmetric. -/
theorem equal_comm (x y : Number) : x.equal y = y.equal x := by
  rw [Bool.eq_iff_iff, equal_iff, equal_iff, eq_comm (a := x), and_comm (a := x.isZero = true)]
  exact and_left_comm

/-- Numeric equality is transitive. -/
theorem equal_trans {x y z : Number} (hxy : x.equal y = true) (hyz : y.equal z = true) :
    x.equal z = true := by
  rw [equal_iff] at hxy hyz ⊢
  obtain ⟨hx, -, hxy⟩ := hxy
  obtain ⟨-, hz, hyz⟩ := hyz
  refine ⟨hx, hz, ?_⟩
  rcases hxy with rfl | ⟨hx, hy⟩
  · exact hyz
  · rcases hyz with rfl | ⟨-, hz⟩
    · exact Or.inr ⟨hx, hy⟩
    · exact Or.inr ⟨hx, hz⟩

/-- Numbers that are equal have the same canonical form. -/
theorem canonical_eq_of_equal {x y : Number} (h : x.equal y = true) :
    x.canonical = y.canonical := by
  obtain ⟨-, -, rfl | ⟨hx, hy⟩⟩ := (equal_iff x y).1 h
  · rfl
  · simp [canonical, hx, hy]

end Number

namespace Value

/-- A value is the same as itself unless it is not-a-number. -/
theorem same_self (v : Value) : v.same v = !v.isNaN := by
  cases v <;> simp [same, isNaN, Number.equal_self]

/-- The comparison of keys is symmetric. -/
theorem same_comm (a b : Value) : a.same b = b.same a := by
  cases a <;> cases b <;> simp only [same, Number.equal_comm, BEq.comm]

/-- The comparison of keys is transitive. -/
theorem same_trans {a b c : Value} (hab : a.same b = true) (hbc : b.same c = true) :
    a.same c = true := by
  cases a <;> cases b <;> simp [same] at hab <;> cases c <;> simp [same] at hbc ⊢
  · exact Number.equal_trans hab hbc
  · exact hab.trans hbc
  · exact hab.trans hbc

/-- Two values that are the same as a third one are the same. -/
theorem same_of_same_same {a b c : Value} (hac : a.same c = true) (hbc : b.same c = true) :
    a.same b = true :=
  same_trans hac (same_comm c b ▸ hbc)

/-- What is the same as another value is not not-a-number. -/
theorem isNaN_eq_false_of_same {a b : Value} (h : a.same b = true) : b.isNaN = false := by
  have hself : b.same b = true := same_trans (same_comm a b ▸ h) h
  rwa [same_self, Bool.not_eq_true'] at hself

/-- Values that are the same have the same hash. -/
theorem hash_eq_of_same {a b : Value} (h : a.same b = true) : a.hash = b.hash := by
  have hbytes : a.hashedBytes = b.hashedBytes := by
    cases a <;> cases b <;> simp [same] at h
    case number.number x y => simp only [hashedBytes, Number.canonical_eq_of_equal h]
    case text.text s t => simp [hashedBytes, h]
    case boolean.boolean b c => simp only [hashedBytes, h]
    case nil.nil => rfl
  rw [hash, hash, hbytes]

/-- A search for either of two keys that are the same starts at the same slot. -/
theorem slotIndex_eq_of_same {a b : Value} (h : a.same b = true) (capacity : Nat) :
    a.slotIndex capacity = b.slotIndex capacity := by
  rw [slotIndex, slotIndex, hash_eq_of_same h]

/-- The slot where a search starts exists. -/
theorem slotIndex_lt (key : Value) {capacity : Nat} (h : 0 < capacity) :
    key.slotIndex capacity < capacity := by
  have hle : key.slotIndex capacity ≤ capacity - 1 := Nat.and_le_right
  omega

end Value

end GradualScript
