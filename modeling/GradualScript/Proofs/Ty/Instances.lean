import GradualScript.Proofs.Ty.Fading

/-!
# Compatible types have an instance in common

`Any` stands for a type that is not known. A type in which it occurs at no depth
(`Ty.isAnyFree`) is known in full, and is an instance of each type that it is compatible
with. Two types are compatible exactly if they have an instance in common
(`Ty.compatible_iff_exists_instance`). Among types that are known in full, compatible ones
are equal (`Ty.eq_of_compatible`).

So compatibility is reflexive and symmetric. It is transitive by way of a type that is known
in full, which is then an instance of both others, but not by way of `Any`
(`Ty.compatible_iff_common_instance`).
-/

set_option autoImplicit false

namespace GradualScript

namespace Primitive

/-- Two primitive types of which one stands for the other are both compatible with one that
is known. -/
theorem exists_instance {k l : Primitive} (h : k.compatible l = true) :
    ∃ m : Primitive, m ≠ any ∧ m.compatible k = true ∧ m.compatible l = true := by
  by_cases hk : k = any
  · by_cases hl : l = any
    · exact ⟨nil, by simp [hk, hl, compatible]⟩
    · exact ⟨l, hl, by simp [hk, compatible], by simp [compatible]⟩
  · exact ⟨k, hk, by simp [compatible], h⟩

/-- Two primitive types of which a third one other than `Any` is an instance are compatible. -/
theorem compatible_of_instance {k l m : Primitive} (hm : m ≠ any)
    (hk : m.compatible k = true) (hl : m.compatible l = true) : k.compatible l = true := by
  cases m <;> cases k <;> cases l <;> simp_all [compatible]

end Primitive

namespace Ty

mutual

/-- Whether a type is known in full: `Any` occurs in it at no depth. -/
def isAnyFree : Ty → Bool
  | .primitive kind => kind != .any
  | .array element => isAnyFree element
  | .table key value => isAnyFree key && isAnyFree value
  | .function params result => isAnyFreeEach params && isAnyFree result
  | .custom _ => true

def isAnyFreeEach : List Ty → Bool
  | [] => true
  | a :: as => isAnyFree a && isAnyFreeEach as

end

/-! ## Instances in common -/

mutual

/-- Compatible types have an instance in common: each part that is not known in one of them
is filled in from the other one. -/
theorem exists_instance : ∀ {a b : Ty}, a.compatible b = true →
    ∃ c : Ty, c.isAnyFree = true ∧ c.compatible a = true ∧ c.compatible b = true
  | .primitive _, .primitive _, h => by
    obtain ⟨m, hm, hk, hl⟩ := Primitive.exists_instance h
    exact ⟨.primitive m, bne_iff_ne.2 hm, hk, hl⟩
  | .array _, .array _, h => by
    rw [compatible] at h
    obtain ⟨c, hc, ha, hb⟩ := exists_instance h
    exact ⟨.array c, by rwa [isAnyFree], by rwa [compatible], by rwa [compatible]⟩
  | .table _ _, .table _ _, h => by
    rw [compatible, Bool.and_eq_true] at h
    obtain ⟨k, hk, hka, hkb⟩ := exists_instance h.1
    obtain ⟨v, hv, hva, hvb⟩ := exists_instance h.2
    exact ⟨.table k v, by simp [isAnyFree, hk, hv], by simp [compatible, hka, hva],
      by simp [compatible, hkb, hvb]⟩
  | .function _ _, .function _ _, h => by
    rw [compatible, Bool.and_eq_true] at h
    obtain ⟨ps, hps, hpsa, hpsb⟩ := exists_instanceEach h.1
    obtain ⟨r, hr, hra, hrb⟩ := exists_instance h.2
    exact ⟨.function ps r, by simp [isAnyFree, hps, hr], by simp [compatible, hpsa, hra],
      by simp [compatible, hpsb, hrb]⟩
  | .custom name, .custom _, h => ⟨.custom name, rfl, compatible_self _, h⟩

/-- Lists of compatible types have a common list of instances without `Any`. -/
theorem exists_instanceEach : ∀ {as bs : List Ty}, compatibleEach as bs = true →
    ∃ cs : List Ty, isAnyFreeEach cs = true ∧ compatibleEach cs as = true ∧
      compatibleEach cs bs = true
  | [], [], _ => ⟨[], rfl, rfl, rfl⟩
  | _ :: _, _ :: _, h => by
    rw [compatibleEach, Bool.and_eq_true] at h
    obtain ⟨c, hc, ha, hb⟩ := exists_instance h.1
    obtain ⟨cs, hcs, has, hbs⟩ := exists_instanceEach h.2
    exact ⟨c :: cs, by simp [isAnyFreeEach, hc, hcs], by simp [compatibleEach, ha, has],
      by simp [compatibleEach, hb, hbs]⟩

end

mutual

/-- Types with an instance in common are compatible. -/
theorem compatible_of_instance : ∀ {c a b : Ty}, c.isAnyFree = true → c.compatible a = true →
    c.compatible b = true → a.compatible b = true
  | .primitive _, .primitive _, .primitive _, hc, ha, hb =>
    Primitive.compatible_of_instance (bne_iff_ne.1 hc) ha hb
  | .array _, .array _, .array _, hc, ha, hb => by
    rw [compatible] at ha hb ⊢
    rw [isAnyFree] at hc
    exact compatible_of_instance hc ha hb
  | .table _ _, .table _ _, .table _ _, hc, ha, hb => by
    rw [compatible, Bool.and_eq_true] at ha hb ⊢
    rw [isAnyFree, Bool.and_eq_true] at hc
    exact ⟨compatible_of_instance hc.1 ha.1 hb.1, compatible_of_instance hc.2 ha.2 hb.2⟩
  | .function _ _, .function _ _, .function _ _, hc, ha, hb => by
    rw [compatible, Bool.and_eq_true] at ha hb ⊢
    rw [isAnyFree, Bool.and_eq_true] at hc
    exact ⟨compatibleEach_of_instance hc.1 ha.1 hb.1, compatible_of_instance hc.2 ha.2 hb.2⟩
  | .custom _, .custom _, .custom _, _, ha, hb => by
    simp only [compatible, beq_iff_eq] at ha hb ⊢
    exact ha.symm.trans hb

/-- Lists of types with a common list of instances without `Any` are compatible. -/
theorem compatibleEach_of_instance : ∀ {cs as bs : List Ty}, isAnyFreeEach cs = true →
    compatibleEach cs as = true → compatibleEach cs bs = true → compatibleEach as bs = true
  | [], [], [], _, _, _ => rfl
  | _ :: _, _ :: _, _ :: _, hc, ha, hb => by
    rw [compatibleEach, Bool.and_eq_true] at ha hb ⊢
    rw [isAnyFreeEach, Bool.and_eq_true] at hc
    exact ⟨compatible_of_instance hc.1 ha.1 hb.1, compatibleEach_of_instance hc.2 ha.2 hb.2⟩

end

/-- Two types are compatible exactly if some type without `Any` is compatible with both. -/
theorem compatible_iff_exists_instance {a b : Ty} :
    a.compatible b = true ↔
      ∃ c : Ty, c.isAnyFree = true ∧ c.compatible a = true ∧ c.compatible b = true := by
  constructor
  · exact exists_instance
  · rintro ⟨c, hc, ha, hb⟩
    exact compatible_of_instance hc ha hb

/-- An instance in common has no order, so compatibility has none. -/
theorem compatible_comm (a b : Ty) : a.compatible b = b.compatible a := by
  rw [Bool.eq_iff_iff, compatible_iff_exists_instance, compatible_iff_exists_instance]
  simp only [and_comm (a := Ty.compatible _ a = true)]

/-! ## Types that are known in full -/

mutual

/-- Compatible types that are known in full are equal. -/
theorem eq_of_compatible : ∀ {a b : Ty}, a.isAnyFree = true → b.isAnyFree = true →
    a.compatible b = true → a = b
  | .primitive _, .primitive _, ha, hb, h => by
    simp only [isAnyFree, bne_iff_ne] at ha hb
    simpa [compatible, Primitive.compatible, ha, hb] using h
  | .array _, .array _, ha, hb, h => by
    rw [isAnyFree] at ha hb
    rw [compatible] at h
    rw [eq_of_compatible ha hb h]
  | .table _ _, .table _ _, ha, hb, h => by
    rw [isAnyFree, Bool.and_eq_true] at ha hb
    rw [compatible, Bool.and_eq_true] at h
    rw [eq_of_compatible ha.1 hb.1 h.1, eq_of_compatible ha.2 hb.2 h.2]
  | .function _ _, .function _ _, ha, hb, h => by
    rw [isAnyFree, Bool.and_eq_true] at ha hb
    rw [compatible, Bool.and_eq_true] at h
    rw [eq_of_compatibleEach ha.1 hb.1 h.1, eq_of_compatible ha.2 hb.2 h.2]
  | .custom _, .custom _, _, _, h => by
    rw [compatible, beq_iff_eq] at h
    rw [h]

/-- Lists of compatible types without `Any` are equal. -/
theorem eq_of_compatibleEach : ∀ {as bs : List Ty}, isAnyFreeEach as = true →
    isAnyFreeEach bs = true → compatibleEach as bs = true → as = bs
  | [], [], _, _, _ => rfl
  | _ :: _, _ :: _, ha, hb, h => by
    rw [isAnyFreeEach, Bool.and_eq_true] at ha hb
    rw [compatibleEach, Bool.and_eq_true] at h
    rw [eq_of_compatible ha.1 hb.1 h.1, eq_of_compatibleEach ha.2 hb.2 h.2]

end

/-- Types are compatible exactly if they have an instance in common, and types that are known
in full exactly if they are equal. Every type is compatible with itself, the order of two
types does not matter, and types are compatible if both are with one that is known in
full. -/
theorem compatible_iff_common_instance (a b : Ty) :
    (a.compatible b = true ↔
        ∃ c : Ty, c.isAnyFree = true ∧ c.compatible a = true ∧ c.compatible b = true) ∧
      (a.isAnyFree = true → b.isAnyFree = true → (a.compatible b = true ↔ a = b)) ∧
      a.compatible a = true ∧ a.compatible b = b.compatible a ∧
      ∀ m : Ty, m.isAnyFree = true → a.compatible m = true → m.compatible b = true →
        a.compatible b = true := by
  refine ⟨compatible_iff_exists_instance, ?_, compatible_self a, compatible_comm a b, ?_⟩
  · intro ha hb
    constructor
    · exact eq_of_compatible ha hb
    · rintro rfl
      exact compatible_self a
  · intro m hm ham hmb
    rw [compatible_comm] at ham
    exact compatible_of_instance hm ham hmb

/-- Two function types that are each known in part are compatible by way of one that is known
in full. This one is not compatible with another one that is known in full. -/
theorem compatible_iff_common_instance_function :
    let known (element : Ty) := Ty.function [.number, .table .string .nil] (.array element)
    let a := Ty.function [.any, .table .string .any] (.array .any)
    let b := Ty.function [.number, .table .any .nil] (.array .boolean)
    (known .boolean).isAnyFree = true ∧ a.compatible (known .boolean) = true ∧
      (known .boolean).compatible b = true ∧ a.compatible b = true ∧
      (known .number).isAnyFree = true ∧ ¬ (known .boolean).compatible (known .number) = true := by
  intro known a b
  have hboolean : (known .boolean).isAnyFree = true := by decide
  have hnumber : (known .number).isAnyFree = true := by decide
  have ha : a.compatible (known .boolean) = true := by decide
  have hb : (known .boolean).compatible b = true := by decide
  obtain ⟨-, -, -, -, htrans⟩ := compatible_iff_common_instance a b
  obtain ⟨-, hequal, -, -, -⟩ := compatible_iff_common_instance (known .boolean) (known .number)
  refine ⟨hboolean, ha, hb, htrans _ hboolean ha hb, hnumber, ?_⟩
  rw [hequal hboolean hnumber]
  decide

/-- Compatibility is not transitive by way of `Any`. -/
example : Ty.number.compatible .any = true ∧ Ty.any.compatible .string = true ∧
    Ty.number.compatible .string = false := by decide

end Ty

end GradualScript
