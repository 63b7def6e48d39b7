import GradualScript.Value.Hash

/-!
# What the hash tells apart

A step of the hash takes a byte into the state and loses nothing of either. The prime is odd,
so the multiplication can be undone (`Fnv.mul_prime_inj`), and the state after a step and the
byte determine the state before it (`Fnv.absorb_left_inj`), as the two states determine the
byte (`Fnv.absorb_right_inj`).

This carries over to any number of bytes. Different states are still different after the same
bytes (`Fnv.absorbAll_inj`), so a difference that one byte has made is not made up for by equal
bytes after it (`Fnv.absorbAll_ne`). Keys whose hashed bytes differ in a single place therefore
never have the same hash (`Value.one_byte_changes_hash`), wherever that place is.
-/

set_option autoImplicit false

namespace GradualScript

/-- As many bytes on either side, which differ at one place and are the same at all others. -/
def OneByteApart (bs cs : List UInt8) : Prop :=
  bs.length = cs.length ∧ ∃ i : Nat, bs[i]? ≠ cs[i]? ∧ ∀ j : Nat, j ≠ i → bs[j]? = cs[j]?

namespace OneByteApart

variable {b c : UInt8} {bs cs : List UInt8}

/-- Bytes that are one byte apart differ. -/
theorem ne (h : OneByteApart bs cs) : bs ≠ cs := by
  obtain ⟨-, i, hi, -⟩ := h
  exact fun heq => hi (congrArg (fun l : List UInt8 => l[i]?) heq)

/-- The difference is in the first byte, or the first bytes are equal and it is further on. -/
theorem of_cons (h : OneByteApart (b :: bs) (c :: cs)) :
    b ≠ c ∧ bs = cs ∨ b = c ∧ OneByteApart bs cs := by
  obtain ⟨hlength, i, hi, hothers⟩ := h
  cases i with
  | zero =>
    refine .inl ⟨by simpa using hi, List.ext_getElem? fun j => ?_⟩
    exact hothers (j + 1) (Nat.succ_ne_zero j)
  | succ i =>
    have hfirst : b = c := by simpa using hothers 0 (Nat.zero_ne_add_one i)
    refine .inr ⟨hfirst, Nat.succ_inj.1 hlength, i, hi, fun j hj => ?_⟩
    exact hothers (j + 1) fun h => hj (Nat.succ_inj.1 h)

/-- The same byte in front of both leaves bytes one byte apart. -/
theorem cons (h : OneByteApart bs cs) (b : UInt8) : OneByteApart (b :: bs) (b :: cs) := by
  obtain ⟨hlength, i, hi, hothers⟩ := h
  refine ⟨congrArg (· + 1) hlength, i + 1, hi, fun j hj => ?_⟩
  cases j with
  | zero => rfl
  | succ j => exact hothers j fun h => hj (congrArg (· + 1) h)

end OneByteApart

namespace Fnv

/-- The inverse of the prime among the 64-bit words. -/
def inversePrime : UInt64 := 14886173955864302971

/-- A product with the prime determines the other factor. -/
theorem mul_prime_inj {a b : UInt64} (h : a * prime = b * prime) : a = b := by
  have hinverse : prime * inversePrime = 1 := by decide
  calc a = a * prime * inversePrime := by rw [UInt64.mul_assoc, hinverse, UInt64.mul_one]
    _ = b * prime * inversePrime := by rw [h]
    _ = b := by rw [UInt64.mul_assoc, hinverse, UInt64.mul_one]

/-- The state after a step and the byte determine the state before it. -/
theorem absorb_left_inj {state state' : UInt64} {byte : UInt8}
    (h : absorb state byte = absorb state' byte) : state = state' :=
  (UInt64.xor_left_inj _).1 (mul_prime_inj h)

/-- The states before and after a step determine the byte. -/
theorem absorb_right_inj {state : UInt64} {byte byte' : UInt8}
    (h : absorb state byte = absorb state byte') : byte = byte' :=
  UInt8.toUInt64_inj.1 ((UInt64.xor_right_inj state).1 (mul_prime_inj h))

/-- Different states are still different after the same bytes. -/
theorem absorbAll_inj (bytes : List UInt8) {state state' : UInt64}
    (h : absorbAll state bytes = absorbAll state' bytes) : state = state' := by
  induction bytes generalizing state state' with
  | nil => exact h
  | cons byte bytes ih => exact absorb_left_inj (ih h)

/-- A difference in one byte is not made up for by the bytes that are equal. -/
theorem absorbAll_ne {bs cs : List UInt8} (h : OneByteApart bs cs) (state : UInt64) :
    absorbAll state bs ≠ absorbAll state cs := by
  induction bs generalizing cs state with
  | nil =>
    have hcs : cs = [] := List.length_eq_zero_iff.1 h.1.symm
    exact absurd hcs.symm h.ne
  | cons b bs ih =>
    cases cs with
    | nil => exact absurd h.1 (Nat.succ_ne_zero _)
    | cons c cs =>
      rcases h.of_cons with ⟨hbyte, rfl⟩ | ⟨rfl, hrest⟩
      · exact fun heq => hbyte (absorb_right_inj (absorbAll_inj bs heq))
      · exact ih hrest (absorb state b)

end Fnv

namespace Number

/-- The byte of the bit pattern with the place value `256 ^ i`. -/
def byteAt (x : Number) (i : Nat) : Nat := x.word / Nat.pow 256 i % 256

/-- The octets of a number are the eight bytes of its pattern. -/
theorem getElem?_octets (x : Number) (i : Nat) :
    x.octets[i]? = if i < 8 then some (UInt8.ofNat (x.byteAt i)) else none := by
  have hoctet : UInt8.ofNat (x.word / Nat.pow 256 i) = UInt8.ofNat (x.byteAt i) :=
    UInt8.toNat_inj.1 (by simp [byteAt])
  split
  · rename_i hi
    simp only [octets, List.getElem?_map, List.getElem?_range hi, Option.map_some, hoctet]
  · rename_i hi
    simpa [octets] using hi

/-- The octets of two patterns are one byte apart if the patterns are. -/
theorem oneByteApart_octets {x y : Number} {i : Nat} (hi : i < 8)
    (h : ∀ j < 8, (x.byteAt j = y.byteAt j ↔ j ≠ i)) : OneByteApart x.octets y.octets := by
  have hbyte (z : Number) (j : Nat) : (UInt8.ofNat (z.byteAt j)).toNat = z.byteAt j := by
    simp [byteAt]
  refine ⟨by simp [octets], i, ?_, fun j hj => ?_⟩
  · rw [getElem?_octets, getElem?_octets, if_pos hi, if_pos hi]
    intro heq
    have hsame := congrArg UInt8.toNat (Option.some.inj heq)
    rw [hbyte, hbyte] at hsame
    exact (h i hi).1 hsame rfl
  · rw [getElem?_octets, getElem?_octets]
    split
    · rename_i hj8
      rw [(h j hj8).2 hj]
    · rfl

end Number

namespace Value

/-- The hash of any bytes determines the state that it started from. So two texts whose
encodings are equally long and differ in one byte have different hashes, and so have two
numbers whose patterns, with the pattern of the positive zero for both zeros, differ in one of
their eight bytes. -/
theorem one_byte_changes_hash :
    (∀ (bytes : List UInt8) (state state' : UInt64),
      Fnv.absorbAll state bytes = Fnv.absorbAll state' bytes → state = state') ∧
    (∀ s t : String, OneByteApart s.toUTF8.data.toList t.toUTF8.data.toList →
      (text s).hash ≠ (text t).hash) ∧
    ∀ (x y : Number) (i : Nat), i < 8 →
      (∀ j < 8, (x.canonical.byteAt j = y.canonical.byteAt j ↔ j ≠ i)) →
        (number x).hash ≠ (number y).hash := by
  refine ⟨fun bytes _ _ => Fnv.absorbAll_inj bytes, fun s t h => ?_, fun x y i hi h => ?_⟩
  · exact Fnv.absorbAll_ne h Fnv.offset
  · exact Fnv.absorbAll_ne ((Number.oneByteApart_octets hi h).cons 1) Fnv.offset

/-- Two texts with another vowel, and the least positive number and the negative zero, whose
patterns differ in two bytes but in one when the zero is taken for the positive one. -/
theorem one_byte_changes_hash_vowel :
    let least : Number := ⟨1⟩
    let minus : Number := ⟨0x8000000000000000⟩
    OneByteApart "cat".toUTF8.data.toList "cut".toUTF8.data.toList ∧
      (text "cat").hash ≠ (text "cut").hash ∧
      Fnv.absorbAll 0 "cat".toUTF8.data.toList ≠ Fnv.absorbAll 1 "cat".toUTF8.data.toList ∧
      least.byteAt 7 ≠ minus.byteAt 7 ∧
      (∀ j < 8, (least.canonical.byteAt j = minus.canonical.byteAt j ↔ j ≠ 0)) ∧
      (number least).hash ≠ (number minus).hash := by
  intro least minus
  obtain ⟨hstates, htexts, hnumbers⟩ := one_byte_changes_hash
  have hbytes : OneByteApart "cat".toUTF8.data.toList "cut".toUTF8.data.toList := by
    refine ⟨by decide, 1, by decide, fun j hj => ?_⟩
    match j with
    | 0 => decide
    | 1 => exact absurd rfl hj
    | j + 2 => rfl
  have hpatterns : ∀ j < 8, (least.canonical.byteAt j = minus.canonical.byteAt j ↔ j ≠ 0) := by
    decide
  refine ⟨hbytes, htexts _ _ hbytes, ?_, by decide, hpatterns, hnumbers _ _ 0 (by decide) hpatterns⟩
  exact fun heq => absurd (hstates _ _ _ heq) (by decide)

end Value

end GradualScript
