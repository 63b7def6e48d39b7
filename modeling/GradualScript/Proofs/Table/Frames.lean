import GradualScript.Proofs.Table.Requests

/-!
# What requests leave as it is

A request that changes a table changes one of its slots (`Table.Rewrites`). A key that is
there has its value changed or is buried in the slot where it is, and the table does not make
room for it even if it is as full as it may be. A new entry goes to the first vacant slot on
the walk of its key (`Table.Placed`), if need be after the entries have been moved to new
slots, which have no tombstones. All other requests leave the table as it was.

This holds of every table that a run of requests has reached
(`Table.requests_touch_one_slot`). It rests on the cases of an insertion being told apart
before any room is made.
-/

set_option autoImplicit false

namespace GradualScript

namespace Table

/-- One slot is another one than before. All others, and their number, are as they were. -/
structure Rewrites (t t' : Table) (i : Nat) (old new : Slot) : Prop where
  before : t.slots[i]? = some old
  after : t'.slots[i]? = some new
  others {j : Nat} : j ≠ i → t'.slots[j]? = t.slots[j]?
  capacity_eq : t'.capacity = t.capacity

/-- A new entry has come to the first vacant slot on the walk of its key. If this was a
tombstone, there is one less. -/
structure Placed (t t' : Table) (e : Entry) (i : Nat) (old : Slot) : Prop where
  firstVacant : FirstVacant t.slots (e.key.slotIndex t.capacity) i
  rewrites : t.Rewrites t' i old (.occupied e)
  size_eq : t'.size = t.size + 1
  tombstones_eq : t'.tombstones + (if old = .tombstone then 1 else 0) = t.tombstones

/-- To set one slot rewrites this slot and no other. -/
theorem Rewrites.of_set {t t' : Table} {i : Nat} {old new : Slot} (hi : t.slots[i]? = some old)
    (hslots : t'.slots = t.slots.setIfInBounds i new) : t.Rewrites t' i old new where
  before := hi
  after := by rw [hslots, getElem?_set hi, if_pos rfl]
  others hj := by rw [hslots, getElem?_set hi, if_neg (Ne.symm hj)]
  capacity_eq := by simp [capacity, hslots]

/-- Where there is room, a new entry is placed. -/
theorem Valid.placed {t : Table} (h : t.Valid)
    (hroom : (t.size + t.tombstones + 1) * 4 ≤ t.capacity * 3) (e : Entry) :
    ∃ i old, t.Placed (t.place e) e i old := by
  have hlength : (slotEntries t.slots).length = t.size := h.length_entries
  have hinitial : 16 ≤ t.slots.size := h.initial_le
  have hload : (t.size + t.tombstones + 1) * 4 ≤ t.slots.size * 3 := hroom
  have hlt : (slotEntries t.slots).length < t.slots.size := by omega
  obtain ⟨j, s, hj, hs⟩ := exists_isVacant hlt
  obtain ⟨i, old, hfirst, hi, -, -⟩ := exists_vacantSlot e.key hj hs
  refine ⟨i, old, vacantSlot?_eq_some_iff.1 hfirst, .of_set hi ?_, rfl, ?_⟩
  · simp [Table.place, Table.settle, hfirst]
  · by_cases hold : old = .tombstone
    · subst hold
      have hcount : 0 < t.slots.count .tombstone :=
        Array.count_pos_iff.2 (Array.mem_of_getElem? hi)
      rw [← h.tombstones_eq] at hcount
      have hplace : (t.place e).tombstones = t.tombstones - 1 := by
        simp [Table.place, hfirst, hi]
      rw [hplace, if_pos rfl]
      omega
    · simp [Table.place, hfirst, hi, hold]

/-- Among slots without tombstones an entry is placed in an empty one. -/
theorem Placed.eq_empty {t t' : Table} {e : Entry} {i : Nat} {old : Slot}
    (h : t.Placed t' e i old) (hnone : t.slots.count .tombstone = 0) : old = .empty := by
  cases old with
  | empty => rfl
  | tombstone =>
    rw [Array.count_eq_zero] at hnone
    exact absurd (Array.mem_of_getElem? h.rewrites.before) hnone
  | occupied f => exact absurd ⟨f, h.rewrites.before⟩ h.firstVacant.2.1

/-! ## One request -/

section Requests

variable {t : Table} {key value : Value}

/-- A search finds neither a key that is not there nor not-a-number. -/
theorem Valid.find?_eq_none (h : t.Valid)
    (habsent : key.isNaN = true ∨ ∀ e ∈ t.entries, e.key.same key = false) :
    t.find? key = none := by
  rw [h.layout.find?_eq_none_iff]
  rcases habsent with hnan | habsent
  · intro e _
    rw [Bool.eq_false_iff]
    intro hsame
    simp [Value.isNaN_eq_false_of_same hsame] at hnan
  · exact habsent

/-- Where a search finds nothing, there is nothing to answer with and nothing to change. -/
theorem answer_of_not_found (h : t.find? key = none) :
    t.answer (.get key) = (.value none, t) ∧ t.answer (.contains key) = (.known false, t) ∧
      t.answer (.replace key value) = (.value none, t) ∧
      t.answer (.remove key) = (.value none, t) := by
  simp [answer, get?, contains, h, replace_of_not_found value h, remove_of_not_found h]

/-- To insert under a key that is found changes the value in its slot, and answers with the old
one. -/
theorem answer_insert_of_found {i : Nat} {e : Entry} (h : t.find? key = some (i, e)) :
    t.answer (.insert key value) = (.inserted (.ok (some e.value)),
      { t with slots := t.slots.setIfInBounds i (.occupied { e with value }) }) := by
  have hnan := Value.isNaN_eq_false_of_same (find?_sound h).2
  have hcontains : t.contains key = true := by simp [contains, h]
  simp [answer, replace_of_found value h, insert_of_present value hnan hcontains]

/-- A key that is the same as a stored one is there in one slot. Inserting it again changes the
value in this slot, and removing it buries it there. -/
theorem Valid.answer_of_present (h : t.Valid) {e : Entry} (he : e ∈ t.entries)
    (hsame : e.key.same key = true) :
    let inserted := t.answer (.insert key value)
    let removed := t.answer (.remove key)
    ∃ i,
      (inserted.1 = .inserted (.ok (some e.value)) ∧
        t.Rewrites inserted.2 i (.occupied e) (.occupied { e with value }) ∧
        inserted.2.size = t.size ∧ inserted.2.tombstones = t.tombstones) ∧
      removed.1 = .value (some e.value) ∧ t.Rewrites removed.2 i (.occupied e) .tombstone ∧
        removed.2.size + 1 = t.size ∧ removed.2.tombstones = t.tombstones + 1 := by
  intro inserted removed
  obtain ⟨i, hi⟩ := mem_slotEntries.1 he
  have hfound : t.find? key = some (i, e) := h.layout.find?_eq_some_iff.2 ⟨hi, hsame⟩
  have hinserted : inserted = _ := answer_insert_of_found hfound
  have hremoved : removed = (.value (some e.value),
      ⟨t.slots.setIfInBounds i .tombstone, t.size - 1, t.tombstones + 1⟩) := by
    simp [removed, Table.answer, remove_of_found hfound]
  have hsize : 0 < t.size := by
    rw [← h.length_entries]
    exact List.length_pos_of_mem he
  rw [hinserted, hremoved]
  exact ⟨i, ⟨rfl, .of_set hi rfl, rfl, rfl⟩, rfl, .of_set hi rfl, Nat.sub_add_cancel hsize, rfl⟩

/-- To insert under a new key makes room and places the entry, and answers with nothing. -/
theorem Valid.answer_insert_of_absent (h : t.Valid) (hnan : key.isNaN = false)
    (habsent : ∀ e ∈ t.entries, e.key.same key = false) :
    t.answer (.insert key value) = (.inserted (.ok none), t.reserve.place ⟨key, value⟩) := by
  have hcontains := h.contains_eq_false_iff.2 habsent
  simp [Table.answer, insert_of_absent value hnan hcontains]

/-- In a table that one more entry would overload, the entry is placed among the moved ones,
and no tombstone is left. -/
theorem Valid.placed_of_overloaded (h : t.Valid) (e : Entry)
    (hover : t.capacity * 3 < (t.size + t.tombstones + 1) * 4) :
    let moved := t.rehash
      (if t.capacity * 3 < (t.size + 1) * 4 then t.capacity * 2 else t.capacity)
    moved.tombstones = 0 ∧ moved.slots.count .tombstone = 0 ∧ moved.entries.Perm t.entries ∧
      (t.reserve.place e).tombstones = 0 ∧ ∃ i, moved.Placed (t.reserve.place e) e i .empty := by
  intro moved
  have hmoved : t.reserve = moved := reserve_of_overloaded hover
  obtain ⟨hvalid, hperm, hroom⟩ := h.reserve
  rw [hmoved] at hvalid hperm hroom ⊢
  have hnone : moved.slots.count .tombstone = 0 := hvalid.tombstones_eq.symm
  obtain ⟨i, old, hplaced⟩ := hvalid.placed hroom e
  obtain rfl := hplaced.eq_empty hnone
  exact ⟨rfl, hnone, hperm, hplaced.tombstones_eq, i, hplaced⟩

end Requests

/-! ## Reachable tables -/

/-- In any table that a run of requests has reached, for any key and value:

* inserting not-a-number is refused, and asking for a key that is not there, or changing or
  removing it, finds nothing; in all these cases the table is left as it was;
* if the key is the same as a stored one, inserting it changes only the value in the slot of
  the stored key, and removing it turns this slot into a tombstone;
* if the key is new and one more slot may be in use, the entry goes to the first vacant slot
  on the walk of its key;
* if the key is new and the slots are used up, the entries are first moved to slots without
  tombstones, and the entry goes to the first vacant one of these, which is empty. -/
theorem requests_touch_one_slot {requested : UInt64} {t₀ : Table}
    (h : withCapacity requested = .ok t₀) (rs : List Request) (key value : Value) :
    let t := (answerAll Table.answer t₀ rs).2
    let inserted := t.answer (.insert key value)
    let removed := t.answer (.remove key)
    (key.isNaN = true → inserted = (.inserted (.error .nanKey), t)) ∧
      (key.isNaN = true ∨ (∀ e ∈ t.entries, e.key.same key = false) →
        t.answer (.get key) = (.value none, t) ∧ t.answer (.contains key) = (.known false, t) ∧
          t.answer (.replace key value) = (.value none, t) ∧ removed = (.value none, t)) ∧
      (∀ e ∈ t.entries, e.key.same key = true → ∃ i,
        (inserted.1 = .inserted (.ok (some e.value)) ∧
          t.Rewrites inserted.2 i (.occupied e) (.occupied ⟨e.key, value⟩) ∧
          inserted.2.size = t.size ∧ inserted.2.tombstones = t.tombstones) ∧
        removed.1 = .value (some e.value) ∧
          t.Rewrites removed.2 i (.occupied e) .tombstone ∧
          removed.2.size + 1 = t.size ∧ removed.2.tombstones = t.tombstones + 1) ∧
      (key.isNaN = false → (∀ e ∈ t.entries, e.key.same key = false) →
        inserted.1 = .inserted (.ok none) ∧
        ((t.size + t.tombstones + 1) * 4 ≤ t.capacity * 3 →
          ∃ i old, t.Placed inserted.2 ⟨key, value⟩ i old) ∧
        (t.capacity * 3 < (t.size + t.tombstones + 1) * 4 →
          let moved := t.rehash
            (if t.capacity * 3 < (t.size + 1) * 4 then t.capacity * 2 else t.capacity)
          moved.tombstones = 0 ∧ moved.slots.count .tombstone = 0 ∧
            moved.entries.Perm t.entries ∧ inserted.2.tombstones = 0 ∧
            ∃ i, moved.Placed inserted.2 ⟨key, value⟩ i .empty)) := by
  intro t inserted removed
  have hvalid : t.Valid := (Valid.withCapacity h).answerAll rs
  refine ⟨fun hnan => ?_, fun habsent => ?_, fun e he hsame => ?_, fun hnan habsent => ?_⟩
  · simp [inserted, answer, insert_of_nan value hnan]
  · exact answer_of_not_found (hvalid.find?_eq_none habsent)
  · exact hvalid.answer_of_present he hsame
  · have hinserted : inserted = _ := hvalid.answer_insert_of_absent hnan habsent
    rw [hinserted]
    refine ⟨rfl, fun hroom => ?_, hvalid.placed_of_overloaded ⟨key, value⟩⟩
    rw [reserve_of_room hroom]
    exact hvalid.placed hroom _

/-- A dozen entries are all that sixteen slots take. One of the zeros takes the place of the
other there, and its value is changed or it is removed, in the same slot. A thirteenth entry
goes to an empty slot of thirty-two. In a table that has forgotten a zero, the other zero
comes to the tombstone. -/
theorem requests_touch_one_slot_dozen :
    let key (i : Nat) : Value := .number ⟨i.toUInt64⟩
    let minus : Value := .number ⟨0x8000000000000000⟩
    let nan : Value := .number ⟨0x7ff8000000000000⟩
    let put (i : Nat) : Request := .insert (key i) .nil
    let full := (answerAll Table.answer Table.empty ((List.range 12).map put)).2
    let thirteen := (full.answer (put 12)).2
    let few := (answerAll Table.answer Table.empty [put 0, put 1, .remove minus]).2
    withCapacity 0 = .ok Table.empty ∧ (full.size + full.tombstones) * 4 = full.capacity * 3 ∧
      full.answer (.insert nan .nil) = (.inserted (.error .nanKey), full) ∧
      full.answer (.remove nan) = (.value none, full) ∧
      (∃ i, full.Rewrites (full.answer (.insert minus (.text "a"))).2 i
          (.occupied ⟨key 0, .nil⟩) (.occupied ⟨key 0, .text "a"⟩) ∧
        full.Rewrites (full.answer (.remove minus)).2 i (.occupied ⟨key 0, .nil⟩) .tombstone) ∧
      (thirteen.capacity = 32 ∧ thirteen.tombstones = 0 ∧
        ∃ i, (full.rehash 32).Placed thirteen ⟨key 12, .nil⟩ i .empty) ∧
      few.tombstones = 1 ∧
        ∃ i, few.Placed (few.answer (.insert minus .nil)).2 ⟨minus, .nil⟩ i .tombstone := by
  intro key minus nan put full thirteen few
  have hempty : withCapacity 0 = .ok Table.empty := rfl
  let dozen := (List.range 12).map put
  obtain ⟨hrefused, hunfound, -, -⟩ := requests_touch_one_slot hempty dozen nan .nil
  obtain ⟨-, -, hstored, -⟩ := requests_touch_one_slot hempty dozen minus (.text "a")
  obtain ⟨-, -, -, hmoved⟩ := requests_touch_one_slot hempty dozen (key 12) .nil
  obtain ⟨-, -, -, hplaced⟩ := requests_touch_one_slot hempty [put 0, put 1, .remove minus] minus
    .nil
  obtain ⟨i, ⟨-, hchanged, -⟩, -, hburied, -⟩ :=
    hstored ⟨key 0, .nil⟩ (by decide +kernel) (by decide +kernel)
  have hthirteen : ∃ i, (full.rehash 32).Placed thirteen ⟨key 12, .nil⟩ i .empty := by
    have hcapacity : (if full.capacity * 3 < (full.size + 1) * 4 then full.capacity * 2
        else full.capacity) = 32 := by decide +kernel
    obtain ⟨-, -, hmoved⟩ := hmoved (by decide) (by decide +kernel)
    obtain ⟨-, -, -, -, hmoved⟩ := hmoved (by decide +kernel)
    exact hcapacity ▸ hmoved
  have hfew : ∃ i, few.Placed (few.answer (.insert minus .nil)).2 ⟨minus, .nil⟩ i .tombstone := by
    obtain ⟨-, hplaced, -⟩ := hplaced (by decide) (by decide +kernel)
    obtain ⟨i, old, hplaced⟩ := hplaced (by decide +kernel)
    by_cases hold : old = .tombstone
    · exact ⟨i, hold ▸ hplaced⟩
    · -- The tombstone is gone, so it is the slot where the entry has come to.
      have hkept := hplaced.tombstones_eq
      rw [if_neg hold] at hkept
      exact absurd hkept (by decide +kernel)
  refine ⟨hempty, by decide +kernel, hrefused rfl, (hunfound (.inl rfl)).2.2.2,
    ⟨i, hchanged, hburied⟩, ⟨?_, by decide +kernel, hthirteen⟩, by decide +kernel, hfew⟩
  obtain ⟨j, hplaced⟩ := hthirteen
  rw [hplaced.rewrites.capacity_eq]
  decide +kernel

end Table

end GradualScript
