import GradualScript.Proofs.Value.KeyEquality
import GradualScript.Table.Basic
import Mathlib.Algebra.Group.Nat.Defs

/-!
# What keys need of equality and hashing

A table compares keys at run time and starts to look for them at a slot that their hash
gives. For this to work, what is the same must have the same hash, at every capacity
(`Value.slotIndex_eq_of_same`), and every key that can be stored must be the same as itself,
so that it is found again (`Table.insert_isOk_iff`).

The comparison of keys is the same relation as equality component by component
(`Value.equal_eq_same`). The slot is the remainder of the hash by the capacity, although it
is computed with a mask (`Value.slotIndex_two_pow`).
-/

set_option autoImplicit false

namespace GradualScript

namespace Value

/-- Texts are compared by the bytes of their encoding, which determine them. So keys are the
same exactly if they are equal component by component. -/
theorem equal_eq_same (a b : Value) : a.equal b = a.same b := by
  cases a <;> cases b
  case text.text s t =>
    rw [equal, same, Bool.eq_iff_iff, beq_iff_eq, beq_iff_eq, ← String.toByteArray_inj]
    exact ByteArray.ext_iff
  all_goals rfl

/-- The values that are not-a-number are numbers. -/
theorem isNaN_iff {v : Value} : v.isNaN = true ↔ ∃ x : Number, v = .number x ∧ x.isNaN = true := by
  cases v <;> simp [isNaN]

/-- The mask of a power of two keeps the remainder. -/
theorem slotIndex_two_pow (key : Value) (k : Nat) :
    key.slotIndex (2 ^ k) = key.hash.toNat % 2 ^ k :=
  Nat.and_two_pow_sub_one_eq_mod _ k

/-- On 64-bit words the mask comes to the same, since every capacity up to `2 ^ 63` is one. -/
theorem toNat_hash_and_mask (key : Value) {k : Nat} (hk : k ≤ 63) :
    (key.hash &&& (UInt64.ofNat (2 ^ k) - 1)).toNat = key.slotIndex (2 ^ k) := by
  have hword : (UInt64.ofNat (2 ^ k)).toNat = 2 ^ k :=
    UInt64.toNat_ofNat_of_lt (Nat.pow_lt_pow_right Nat.one_lt_two (Nat.lt_succ_of_le hk))
  have hpos : (1 : UInt64) ≤ UInt64.ofNat (2 ^ k) := by
    rw [UInt64.le_iff_toNat_le, hword]
    exact Nat.one_le_two_pow
  rw [UInt64.toNat_and, UInt64.toNat_sub_of_le _ _ hpos, hword]
  rfl

end Value

namespace Table

/-- A key is stored if it is the same as itself, and refused otherwise. -/
theorem insert_isOk_iff (t : Table) (key value : Value) :
    (∃ outcome, t.insert key value = .ok outcome) ↔ key.same key = true := by
  rw [Value.same_self, insert]
  cases key.isNaN with
  | true => simp
  | false => cases t.contains key <;> simp

end Table

namespace Value

/-- The comparison of keys is symmetric and transitive and is equality component by component.
A value is the same as itself unless it is not-a-number, and these are the values that every
table takes as keys. Values that are the same have the same hash. At every power of two that
is a 64-bit word, the slot of a value is the remainder of its hash, whether computed on words
or not, and is below the capacity; it is the same for values that are the same. -/
theorem same_fits_hash (a b c : Value) :
    a.same b = b.same a ∧ (a.same b = true → b.same c = true → a.same c = true) ∧
      a.equal b = a.same b ∧
      (a.same a = false ↔ ∃ x : Number, a = .number x ∧ x.isNaN = true) ∧
      (∀ (t : Table) (value : Value),
        (∃ outcome, t.insert a value = .ok outcome) ↔ a.same a = true) ∧
      (a.same b = true → a.hash = b.hash) ∧
      ∀ k ≤ 63, a.slotIndex (2 ^ k) = a.hash.toNat % 2 ^ k ∧ a.slotIndex (2 ^ k) < 2 ^ k ∧
        a.slotIndex (2 ^ k) = (a.hash &&& (UInt64.ofNat (2 ^ k) - 1)).toNat ∧
        (a.same b = true → a.slotIndex (2 ^ k) = b.slotIndex (2 ^ k)) := by
  have hself : a.same a = false ↔ ∃ x : Number, a = .number x ∧ x.isNaN = true := by
    rw [same_self, Bool.not_eq_false', isNaN_iff]
  refine ⟨same_comm a b, same_trans, equal_eq_same a b, hself,
    fun t value => t.insert_isOk_iff a value, hash_eq_of_same, fun k hk => ⟨?_, ?_, ?_, ?_⟩⟩
  · exact slotIndex_two_pow a k
  · exact slotIndex_lt a (Nat.two_pow_pos k)
  · exact (toNat_hash_and_mask a hk).symm
  · exact fun hsame => slotIndex_eq_of_same hsame _

/-- The two zeros have different patterns, but are one key to every table. -/
theorem same_fits_hash_zeros :
    let plus := Value.number ⟨0⟩
    let minus := Value.number ⟨0x8000000000000000⟩
    minus ≠ plus ∧ minus.same plus = true ∧ minus.hash = plus.hash ∧
      minus.slotIndex (2 ^ 63) = plus.slotIndex (2 ^ 63) ∧ minus.slotIndex (2 ^ 63) < 2 ^ 63 := by
  intro plus minus
  have hsame : minus.same plus = true := by decide
  obtain ⟨-, -, -, -, -, hhash, hslots⟩ := same_fits_hash minus plus plus
  obtain ⟨-, hlt, -, hslot⟩ := hslots 63 (Nat.le_refl 63)
  exact ⟨by decide, hsame, hhash hsame, hslot hsame, hlt⟩

end Value

end GradualScript
