import GradualScript.Proofs.Table.Layout

/-!
# The invariant of tables

`Table.Valid` says what a table is at any time: it has a power of two of slots, at
least as many as initially; its counters are exact; with its tombstones it is at most
three quarters full; and its slots are a layout. A fresh table is valid, and every
operation keeps a table valid.

Most of the work is the move to new slots. The entries are settled one after the other
in slots that have room for all of them (`Table.Layout.settle`), so none is lost and none
comes twice (`Table.Valid.rehash`).
-/

set_option autoImplicit false

namespace GradualScript

namespace Table

open Probe

/-- What holds of a table at any time. -/
structure Valid (t : Table) : Prop where
  power : t.capacity.isPowerOfTwo
  initial_le : Capacity.initial ≤ t.capacity
  size_eq : t.size = t.slots.countP fun s => !s.isVacant
  tombstones_eq : t.tombstones = t.slots.count .tombstone
  load : (t.size + t.tombstones) * 4 ≤ t.capacity * 3
  layout : Layout t.slots

/-- A valid table has as many entries as it counts. -/
theorem Valid.length_entries {t : Table} (h : t.Valid) : t.entries.length = t.size :=
  (length_slotEntries t.slots).trans h.size_eq.symm

/-- In a valid table there is a slot that is neither occupied nor a tombstone. -/
theorem Valid.used_lt {t : Table} (h : t.Valid) : t.size + t.tombstones < t.capacity := by
  have hload := h.load
  have hinitial : 16 ≤ t.capacity := h.initial_le
  omega

/-! ## Fresh tables -/

/-- The capacity of a fresh table is not less than the initial one. -/
theorem initial_le_round (requested : Nat) :
    Capacity.initial ≤ Capacity.round requested := by
  have hlog := Nat.lt_log2_self (n := max requested Capacity.initial - 1)
  have hmax := Nat.le_max_right requested Capacity.initial
  rw [Capacity.round, Nat.pow_eq]
  omega

/-- There are as many empty slots as were asked for. -/
@[simp] theorem size_emptySlots (capacity : Nat) : (emptySlots capacity).size = capacity := by
  simp [emptySlots]

/-- Empty slots hold no entries. -/
@[simp] theorem slotEntries_emptySlots (capacity : Nat) :
    slotEntries (emptySlots capacity) = [] := by
  simp [slotEntries, emptySlots, List.filterMap_replicate, Slot.content?]

/-- Empty slots are no tombstones. -/
@[simp] theorem count_tombstone_emptySlots (capacity : Nat) :
    (emptySlots capacity).count .tombstone = 0 := by
  simp [emptySlots, Array.count_replicate]

/-- A table of empty slots is valid, if they are a power of two and at least sixteen. -/
theorem Valid.fresh {capacity : Nat} (hpower : capacity.isPowerOfTwo)
    (hle : Capacity.initial ≤ capacity) : (fresh capacity).Valid where
  power := by simpa [Table.capacity, Table.fresh] using hpower
  initial_le := by simpa [Table.capacity, Table.fresh] using hle
  size_eq := by
    rw [← length_slotEntries]
    simp [Table.fresh]
  tombstones_eq := by simp [Table.fresh]
  load := by simp [Table.fresh]
  layout := layout_emptySlots capacity

/-- A fresh table is valid, whatever capacity was requested. -/
theorem Valid.withCapacity {requested : UInt64} {t : Table}
    (h : withCapacity requested = .ok t) : t.Valid := by
  simp only [Table.withCapacity] at h
  split at h
  · obtain rfl := Except.ok.inj h
    exact Valid.fresh ⟨_, rfl⟩ (initial_le_round _)
  · cases h

/-! ## Settling entries -/

/-- If the entries are fewer than the slots, some slot is vacant. -/
theorem exists_isVacant {slots : Array Slot} (h : (slotEntries slots).length < slots.size) :
    ∃ (i : Nat) (s : Slot), slots[i]? = some s ∧ s.isVacant = true := by
  rw [length_slotEntries] at h
  obtain ⟨i, s, hi, hvacant⟩ := exists_of_countP_lt h
  exact ⟨i, s, hi, by simpa using hvacant⟩

/-- An entry with a new key settles in a vacant slot if there is room, and leaves a
layout. -/
theorem Layout.settle {slots : Array Slot} (h : Layout slots)
    (hroom : (slotEntries slots).length < slots.size) {e : Entry} (hnan : e.key.isNaN = false)
    (hnew : ∀ f ∈ slotEntries slots, f.key.same e.key = false) :
    ∃ i s, vacantSlot? slots e.key = some i ∧ slots[i]? = some s ∧ s.isVacant = true ∧
      settle slots e = slots.setIfInBounds i (.occupied e) ∧ Layout (settle slots e) := by
  obtain ⟨j, s, hj, hs⟩ := exists_isVacant hroom
  obtain ⟨i, s', hfirst, hi, hvacant, hreach⟩ := exists_vacantSlot e.key hj hs
  have hsettle : Table.settle slots e = slots.setIfInBounds i (.occupied e) := by
    simp [Table.settle, hfirst]
  exact ⟨i, s', hfirst, hi, hvacant, hsettle, hsettle ▸ h.occupy hi hreach hnan hnew⟩

/-- No two entries of a layout have the same key. -/
theorem Layout.pairwise_entries {slots : Array Slot} (h : Layout slots) :
    (slotEntries slots).Pairwise fun e f => e.key.same f.key = false := by
  rw [slotEntries, List.pairwise_filterMap, List.pairwise_iff_getElem]
  intro i j hi hj hij e he f hf
  rw [content?_eq_some_iff] at he hf
  rw [Bool.eq_false_iff]
  intro hsame
  have hei : slots[i]? = some (.occupied e) := by
    rw [← he, ← Array.getElem?_toList, List.getElem?_eq_getElem hi]
  have hfj : slots[j]? = some (.occupied f) := by
    rw [← hf, ← Array.getElem?_toList, List.getElem?_eq_getElem hj]
  have := h.distinct hei hfj hsame
  omega

/-- No entry of a layout has not-a-number as its key. -/
theorem Layout.comparable_entries {slots : Array Slot} (h : Layout slots) {e : Entry}
    (he : e ∈ slotEntries slots) : e.key.isNaN = false := by
  obtain ⟨i, hi⟩ := mem_slotEntries.1 he
  exact h.comparable hi

/-- There are as many slots after an entry has settled in one. -/
theorem size_settle (slots : Array Slot) (e : Entry) :
    (settle slots e).size = slots.size := by
  unfold settle
  split <;> simp

/-- An entry that settles makes no tombstones, and may take the place of one. -/
theorem count_tombstone_settle_le (slots : Array Slot) (e : Entry) :
    (settle slots e).count .tombstone ≤ slots.count .tombstone := by
  unfold settle
  split
  · exact Nat.le_refl _
  · rename_i i _
    cases hi : slots[i]? with
    | none =>
      have hsame : slots.setIfInBounds i (.occupied e) = slots :=
        Array.setIfInBounds_eq_of_size_le (by simpa using hi)
      exact Nat.le_of_eq (congrArg (Array.count .tombstone) hsame)
    | some s =>
      have hcount := countP_set (· == .tombstone) hi (.occupied e)
      simp only [Array.count, reduceCtorEq, beq_iff_eq, if_false] at hcount ⊢
      omega

/-- What settling entries one after the other in a layout gives. -/
structure Settled (before after : Array Slot) (es : List Entry) : Prop where
  layout : Layout after
  size_eq : after.size = before.size
  entries_perm : (slotEntries after).Perm (es ++ slotEntries before)
  tombstones_le : after.count .tombstone ≤ before.count .tombstone

/-- Entries settle in a layout that has room for all of them, if their keys are new and
different from one another. -/
theorem Layout.settleAll {slots : Array Slot} (h : Layout slots) (es : List Entry)
    (hroom : es.length + (slotEntries slots).length ≤ slots.size)
    (hnan : ∀ e ∈ es, e.key.isNaN = false)
    (hdistinct : es.Pairwise fun e f => e.key.same f.key = false)
    (hnew : ∀ e ∈ es, ∀ f ∈ slotEntries slots, f.key.same e.key = false) :
    Settled slots (es.foldl Table.settle slots) es := by
  induction es generalizing slots with
  | nil => exact ⟨h, rfl, List.Perm.refl _, Nat.le_refl _⟩
  | cons e es ih =>
    rw [List.pairwise_cons] at hdistinct
    rw [List.length_cons] at hroom
    obtain ⟨i, s, -, hi, hvacant, hset, hlayout⟩ := h.settle (by omega)
      (hnan e List.mem_cons_self) (hnew e List.mem_cons_self)
    have hperm : (slotEntries (Table.settle slots e)).Perm (e :: slotEntries slots) :=
      hset ▸ slotEntries_occupy hi hvacant e
    have hlength := hperm.length_eq
    rw [List.length_cons] at hlength
    have hrest := ih hlayout (by rw [size_settle]; omega)
      (fun f hf => hnan f (List.mem_cons_of_mem e hf)) hdistinct.2 (fun f hf g hg => by
        rcases List.mem_cons.1 (hperm.subset hg) with rfl | hg
        · exact hdistinct.1 f hf
        · exact hnew f (List.mem_cons_of_mem e hf) g hg)
    refine ⟨hrest.layout, ?_, ?_, ?_⟩
    · rw [List.foldl_cons, hrest.size_eq, size_settle]
    · exact hrest.entries_perm.trans ((hperm.append_left es).trans List.perm_middle)
    · exact Nat.le_trans hrest.tombstones_le (count_tombstone_settle_le slots e)

/-! ## Moving to new slots -/

/-- Moving to slots with room for all entries keeps the entries, and leaves a layout
without tombstones. -/
theorem Layout.rehash {t : Table} (h : Layout t.slots) (capacity : Nat)
    (hroom : t.entries.length ≤ capacity) :
    Layout (t.rehash capacity).slots ∧ (t.rehash capacity).capacity = capacity ∧
      (t.rehash capacity).entries.Perm t.entries ∧
      (t.rehash capacity).slots.count .tombstone = 0 := by
  have hsettled := (layout_emptySlots capacity).settleAll t.entries (by simpa using hroom)
    (fun e he => h.comparable_entries he) h.pairwise_entries (by simp)
  refine ⟨hsettled.layout, ?_, ?_, ?_⟩
  · exact hsettled.size_eq.trans (size_emptySlots capacity)
  · have hperm := hsettled.entries_perm
    rw [slotEntries_emptySlots, List.append_nil] at hperm
    exact hperm
  · have hle := hsettled.tombstones_le
    rw [count_tombstone_emptySlots] at hle
    exact Nat.eq_zero_of_le_zero hle

/-- A valid table stays valid when it moves to a power of two of slots that are not
overloaded. -/
theorem Valid.rehash {t : Table} (h : t.Valid) {capacity : Nat} (hpower : capacity.isPowerOfTwo)
    (hle : Capacity.initial ≤ capacity) (hload : t.size * 4 ≤ capacity * 3) :
    (t.rehash capacity).Valid := by
  have hlength := h.length_entries
  obtain ⟨hlayout, hcapacity, hperm, htombstones⟩ := h.layout.rehash capacity (by omega)
  exact {
    power := hcapacity.symm ▸ hpower
    initial_le := hcapacity.symm ▸ hle
    size_eq := by
      rw [← length_slotEntries]
      exact (hperm.length_eq.trans hlength).symm
    tombstones_eq := htombstones.symm
    load := by
      rw [hcapacity]
      exact hload
    layout := hlayout }

/-- A table that one more entry would overload moves its entries before it takes the entry,
to twice as many slots if the tombstones alone are not to blame. -/
theorem reserve_of_overloaded {t : Table}
    (h : t.capacity * 3 < (t.size + t.tombstones + 1) * 4) :
    t.reserve = t.rehash
      (if t.capacity * 3 < (t.size + 1) * 4 then t.capacity * 2 else t.capacity) := by
  have hover : Capacity.overloaded (t.size + t.tombstones + 1) t.capacity = true :=
    decide_eq_true h
  rw [reserve, if_pos hover]
  by_cases hentries : t.capacity * 3 < (t.size + 1) * 4 <;>
    simp [Capacity.overloaded, hentries]

/-- A table with room for one more entry stays as it is when it makes room. -/
theorem reserve_of_room {t : Table} (h : (t.size + t.tombstones + 1) * 4 ≤ t.capacity * 3) :
    t.reserve = t := by
  have hfits : Capacity.overloaded (t.size + t.tombstones + 1) t.capacity = false :=
    decide_eq_false (Nat.not_lt.2 h)
  rw [reserve, hfits]
  rfl

/-- Making room keeps a table valid and its entries as they are, and afterwards one more
entry fits. -/
theorem Valid.reserve {t : Table} (h : t.Valid) :
    t.reserve.Valid ∧ t.reserve.entries.Perm t.entries ∧
      (t.reserve.size + t.reserve.tombstones + 1) * 4 ≤ t.reserve.capacity * 3 := by
  have hlength := h.length_entries
  have hload := h.load
  have hinitial := h.initial_le
  rcases Nat.lt_or_ge (t.capacity * 3) ((t.size + t.tombstones + 1) * 4) with hover | hroom
  · rw [reserve_of_overloaded hover]
    split
    · -- The entries alone would overload the table, and it doubles.
      have hpower := Nat.isPowerOfTwo_mul_two_of_isPowerOfTwo h.power
      obtain ⟨-, hcapacity, hperm, -⟩ := h.layout.rehash (t.capacity * 2) (by omega)
      refine ⟨h.rehash hpower (by omega) (by omega), hperm, ?_⟩
      rw [hcapacity]
      show (t.size + 0 + 1) * 4 ≤ t.capacity * 2 * 3
      unfold Capacity.initial at hinitial
      omega
    · -- Without the tombstones there is room enough.
      rename_i hfits
      obtain ⟨-, hcapacity, hperm, -⟩ := h.layout.rehash t.capacity (by omega)
      refine ⟨h.rehash h.power h.initial_le (by omega), hperm, ?_⟩
      rw [hcapacity]
      exact Nat.not_lt.1 hfits
  · rw [reserve_of_room hroom]
    exact ⟨h, List.Perm.refl _, hroom⟩

/-! ## Changing entries -/

/-- A valid table is valid still with another value in an occupied slot. -/
theorem Valid.revalue {t : Table} (h : t.Valid) {i : Nat} {e : Entry}
    (hi : t.slots[i]? = some (.occupied e)) (value : Value) :
    ({ t with slots := t.slots.setIfInBounds i (.occupied { e with value }) } : Table).Valid := by
  have hcapacity : ({ t with slots := t.slots.setIfInBounds i (.occupied { e with value }) } :
      Table).capacity = t.capacity := by
    simp [Table.capacity]
  have hsize := countP_set (fun s => !s.isVacant) hi (.occupied { e with value })
  have htombstones := countP_set (· == .tombstone) hi (.occupied { e with value })
  simp only [reduceCtorEq, beq_iff_eq, if_false, Nat.add_zero] at htombstones
  exact {
    power := hcapacity.symm ▸ h.power
    initial_le := hcapacity.symm ▸ h.initial_le
    size_eq := h.size_eq.trans (Nat.add_right_cancel hsize).symm
    tombstones_eq := h.tombstones_eq.trans htombstones.symm
    load := hcapacity.symm ▸ h.load
    layout := h.layout.revalue hi value }

/-- A valid table is valid still with a tombstone in an occupied slot, and the counters changed by
one. -/
theorem Valid.bury {t : Table} (h : t.Valid) {i : Nat} {e : Entry}
    (hi : t.slots[i]? = some (.occupied e)) :
    (⟨t.slots.setIfInBounds i .tombstone, t.size - 1, t.tombstones + 1⟩ : Table).Valid := by
  have hcapacity : (⟨t.slots.setIfInBounds i .tombstone, t.size - 1, t.tombstones + 1⟩ :
      Table).capacity = t.capacity := by
    simp [Table.capacity]
  have hsize := countP_set (fun s => !s.isVacant) hi .tombstone
  have htombstones := countP_set (· == .tombstone) hi .tombstone
  simp only [isVacant_occupied, isVacant_tombstone, reduceCtorEq, beq_iff_eq, if_false, if_true,
    Bool.not_true, Bool.not_false, Bool.false_eq_true, Nat.add_zero] at hsize htombstones
  have hsizeEq := h.size_eq
  have htombstonesEq := h.tombstones_eq
  have hload := h.load
  exact {
    power := hcapacity.symm ▸ h.power
    initial_le := hcapacity.symm ▸ h.initial_le
    size_eq := by
      simp only
      omega
    tombstones_eq := by
      simp only [Array.count] at htombstonesEq ⊢
      omega
    load := by
      rw [hcapacity]
      simp only
      omega
    layout := h.layout.bury hi }

/-- Placing an entry with a new key where there is room keeps a table valid, and adds the
entry to those that were there. -/
theorem Valid.place {t : Table} (h : t.Valid) {e : Entry}
    (hroom : (t.size + t.tombstones + 1) * 4 ≤ t.capacity * 3) (hnan : e.key.isNaN = false)
    (hnew : ∀ f ∈ t.entries, f.key.same e.key = false) :
    (t.place e).Valid ∧ (t.place e).entries.Perm (e :: t.entries) := by
  have hlength := h.length_entries
  have hinitial := h.initial_le
  obtain ⟨i, s, hfirst, hi, hvacant, hset, hlayout⟩ := h.layout.settle (e := e)
    (show t.entries.length < t.capacity by unfold Capacity.initial at hinitial; omega) hnan hnew
  have hperm : (t.place e).entries.Perm (e :: t.entries) := by
    show (slotEntries (settle t.slots e)).Perm _
    rw [hset]
    exact slotEntries_occupy hi hvacant e
  have hcapacity : (t.place e).capacity = t.capacity := size_settle t.slots e
  -- The slot was empty or a tombstone, and in the second case one tombstone less is counted.
  have hcount := countP_set (· == .tombstone) hi (.occupied e)
  have htombstonesEq := h.tombstones_eq
  have htombstones : (t.place e).tombstones = (t.place e).slots.count .tombstone ∧
      (t.place e).tombstones ≤ t.tombstones := by
    have hslots : (t.place e).slots = t.slots.setIfInBounds i (.occupied e) := hset
    rw [hslots]
    cases s with
    | occupied f => simp at hvacant
    | empty =>
      have hplace : (t.place e).tombstones = t.tombstones := by simp [Table.place, hfirst, hi]
      simp only [Array.count, reduceCtorEq, beq_iff_eq, if_false] at hcount htombstonesEq ⊢
      omega
    | tombstone =>
      have hplace : (t.place e).tombstones = t.tombstones - 1 := by
        simp [Table.place, hfirst, hi]
      simp only [Array.count, reduceCtorEq, beq_iff_eq, if_false, if_true] at hcount htombstonesEq ⊢
      omega
  have hvalid : (t.place e).Valid := {
    power := hcapacity.symm ▸ h.power
    initial_le := hcapacity.symm ▸ h.initial_le
    size_eq := by
      rw [← length_slotEntries]
      show t.size + 1 = (t.place e).entries.length
      rw [hperm.length_eq, List.length_cons, hlength]
    tombstones_eq := htombstones.1
    load := by
      have hle := htombstones.2
      rw [hcapacity]
      show (t.size + 1 + (t.place e).tombstones) * 4 ≤ t.capacity * 3
      omega
    layout := hlayout }
  exact ⟨hvalid, hperm⟩

/-- Inserting an entry with a new key keeps a table valid, and adds the entry to those
that were there. -/
theorem Valid.add {t : Table} (h : t.Valid) {e : Entry} (hnan : e.key.isNaN = false)
    (hnew : ∀ f ∈ t.entries, f.key.same e.key = false) :
    (t.reserve.place e).Valid ∧ (t.reserve.place e).entries.Perm (e :: t.entries) := by
  obtain ⟨hvalid, hperm, hroom⟩ := h.reserve
  have hplace := hvalid.place hroom hnan fun f hf => hnew f (hperm.subset hf)
  exact ⟨hplace.1, hplace.2.trans (hperm.cons e)⟩

end Table

end GradualScript
