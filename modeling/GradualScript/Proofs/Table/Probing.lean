import GradualScript.Proofs.Value.KeyEquality
import GradualScript.Table.Basic

/-!
# Walks over the slots

The search `Probe.firstSlot?` is the search for the least number of steps after which
the walk is at a slot where it may stop (`Probe.firstSlot?_eq_find?`). After `n` steps
from `start` the walk is at `Probe.position capacity start n`. With as many steps as
there are slots it comes to each of them (`Probe.exists_position_eq`), and to none of
them twice (`Probe.position_inj`).

The slots of a table are a power of two, and a walk is then a matter of masks, in its steps
(`Probe.next_of_isPowerOfTwo`) as in the slot it starts from (`Value.slotIndex_two_pow`).

`Probe.Reaches slots key i` says that the walk of a key comes to slot `i` without
passing an empty slot. This is what a stored key needs to be found again.
-/

set_option autoImplicit false

namespace GradualScript

namespace Probe

/-- With a power of two of slots, a walk goes on to the slot that the mask of the capacity
gives. -/
theorem next_of_isPowerOfTwo {capacity : Nat} (h : capacity.isPowerOfTwo) (i : Nat) :
    next capacity i = (i + 1) &&& (capacity - 1) := by
  obtain ⟨k, rfl⟩ := h
  exact (Nat.and_two_pow_sub_one_eq_mod (i + 1) k).symm

def position (capacity start n : Nat) : Nat := (start + n) % capacity

/-- A walk never leaves the slots. -/
theorem position_lt {capacity : Nat} (h : 0 < capacity) (start n : Nat) :
    position capacity start n < capacity :=
  Nat.mod_lt _ h

/-- A walk is at its start before the first step. -/
theorem position_zero {capacity start : Nat} (h : start < capacity) :
    position capacity start 0 = start :=
  Nat.mod_eq_of_lt h

/-- The walk from the next slot is one step ahead. -/
theorem position_next (capacity start n : Nat) :
    position capacity (next capacity start) n = position capacity start (n + 1) := by
  simp only [position, next, Nat.mod_add_mod]
  congr 1
  omega

/-- A walk goes on from where it has come to. -/
theorem position_add (capacity start m n : Nat) :
    position capacity start (m + n) = position capacity (position capacity start m) n := by
  rw [position, position, position, Nat.mod_add_mod, Nat.add_assoc]

/-- Every slot is on the walk. -/
theorem exists_position_eq {capacity start i : Nat} (hs : start < capacity) (hi : i < capacity) :
    ∃ n < capacity, position capacity start n = i := by
  rcases Nat.lt_or_ge i start with h | h
  · refine ⟨capacity + i - start, by omega, ?_⟩
    have hsum : start + (capacity + i - start) = i + capacity := by omega
    rw [position, hsum, Nat.add_mod_right, Nat.mod_eq_of_lt hi]
  · refine ⟨i - start, by omega, ?_⟩
    rw [position, Nat.add_sub_cancel' h, Nat.mod_eq_of_lt hi]

/-- A walk of fewer steps than there are slots comes to no slot twice. -/
theorem position_inj {capacity start m n : Nat} (hs : start < capacity) (hm : m < capacity)
    (hn : n < capacity) (h : position capacity start m = position capacity start n) : m = n := by
  have wrap (k : Nat) (hk : k < capacity) :
      position capacity start k = start + k ∨ position capacity start k + capacity = start + k := by
    rcases Nat.lt_or_ge (start + k) capacity with hlt | hge
    · exact Or.inl (Nat.mod_eq_of_lt hlt)
    · right
      rw [position, Nat.mod_eq_sub_mod hge, Nat.mod_eq_of_lt (by omega)]
      omega
  have hmw := wrap m hm
  have hnw := wrap n hn
  have hmlt := position_lt (Nat.zero_lt_of_lt hs) start m
  omega

def stopsAt (slots : Array Slot) (stop : Slot → Bool) (i : Nat) : Bool := slots[i]?.any stop

/-- A search stops after the least number of steps that takes it to a slot where it
may. -/
theorem firstSlot?_eq_find? {slots : Array Slot} (stop : Slot → Bool) {start : Nat}
    (hs : start < slots.size) (budget : Nat) :
    firstSlot? slots stop start budget =
      ((List.range budget).find? fun n => stopsAt slots stop (position slots.size start n)).map
        (position slots.size start) := by
  induction budget generalizing start with
  | zero => rfl
  | succ budget ih =>
    have hnext : next slots.size start < slots.size := Nat.mod_lt _ (Nat.zero_lt_of_lt hs)
    have hstop : stopsAt slots stop start = stop slots[start] := by
      simp [stopsAt, hs]
    rw [firstSlot?, Array.getElem?_eq_getElem hs, List.range_succ_eq_map, List.find?_cons,
      position_zero hs, hstop]
    cases hhere : stop slots[start] with
    | true => simp [hhere, position_zero hs]
    | false =>
      have hcomp : position slots.size start ∘ Nat.succ =
          position slots.size (next slots.size start) :=
        funext fun n => (position_next slots.size start n).symm
      simp only [hhere, Bool.false_eq_true, if_false, ih hnext, List.find?_map, Option.map_map,
        hcomp, Function.comp_def, Nat.succ_eq_add_one, position_next]

/-- A search finds a slot exactly if the walk comes to it within the budget, may stop
there, and may not stop earlier. -/
theorem firstSlot?_eq_some_iff {slots : Array Slot} {stop : Slot → Bool} {start : Nat}
    (hs : start < slots.size) {budget i : Nat} :
    firstSlot? slots stop start budget = some i ↔
      ∃ n < budget, position slots.size start n = i ∧ stopsAt slots stop i = true ∧
        ∀ m < n, stopsAt slots stop (position slots.size start m) = false := by
  simp only [firstSlot?_eq_find? stop hs, Option.map_eq_some_iff, List.find?_range_eq_some,
    List.mem_range, Bool.not_eq_true']
  constructor
  · rintro ⟨n, ⟨hstop, hn, hbefore⟩, rfl⟩
    exact ⟨n, hn, rfl, hstop, hbefore⟩
  · rintro ⟨n, hn, rfl, hstop, hbefore⟩
    exact ⟨n, ⟨hstop, hn, hbefore⟩, rfl⟩

/-- A search over all slots that finds nothing may stop at none of them. -/
theorem stopsAt_eq_false_of_firstSlot?_eq_none {slots : Array Slot} {stop : Slot → Bool}
    {start : Nat} (hs : start < slots.size)
    (h : firstSlot? slots stop start slots.size = none) {i : Nat} (hi : i < slots.size) :
    stopsAt slots stop i = false := by
  rw [firstSlot?_eq_find? stop hs, Option.map_eq_none_iff, List.find?_range_eq_none] at h
  obtain ⟨n, hn, rfl⟩ := exists_position_eq hs hi
  simpa using h n hn

/-- The walk of a key comes to slot `i`, and passes no empty slot before. -/
def Reaches (slots : Array Slot) (key : Value) (i : Nat) : Prop :=
  ∃ n < slots.size, position slots.size (key.slotIndex slots.size) n = i ∧
    ∀ m < n, slots[position slots.size (key.slotIndex slots.size) m]? ≠ some .empty

/-- Filling a slot, with an entry or with a tombstone, empties no walk. -/
theorem Reaches.set {slots : Array Slot} {key : Value} {i : Nat} (h : Reaches slots key i)
    (j : Nat) {s : Slot} (hs : s ≠ .empty) : Reaches (slots.setIfInBounds j s) key i := by
  obtain ⟨n, hn, hi, hpath⟩ := h
  simp only [Reaches, Array.size_setIfInBounds]
  refine ⟨n, hn, hi, ?_⟩
  intro m hm
  rw [Array.getElem?_setIfInBounds]
  split
  · split <;> simp [hs]
  · exact hpath m hm

end Probe

end GradualScript
