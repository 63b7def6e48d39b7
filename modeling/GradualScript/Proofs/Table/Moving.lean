import GradualScript.Proofs.Table.Requests

/-!
# Moving entries to new slots

When a table moves its entries to new slots, it puts them there one after the other, each in
the first vacant slot on the walk of its key, and compares no keys. The new slots may be as
many as the old ones, more, or fewer, as long as there is one more of them than there are
entries.

What this takes of the old slots is less than what holds of a table at any time
(`Table.Valid`): it takes exact counters, slots that are a layout, and a slot that is empty
(`Table.Searchable`). There may be any number of slots, and they may be overloaded. The new
slots have all of it again, without tombstones, and every search finds the same entry in them
(`Table.Searchable.rehash`, `Table.rehash_keeps_entries`). What one entry needs and leaves when
it is put into the new slots is `Table.Layout.settle`, and what all of them leave is
`Table.Layout.settleAll`.
-/

set_option autoImplicit false

namespace GradualScript

namespace Table

/-- What searches need to be right and to end: exact counters, a layout, and an empty slot. -/
structure Searchable (t : Table) : Prop where
  size_eq : t.size = t.slots.countP fun s => !s.isVacant
  tombstones_eq : t.tombstones = t.slots.count .tombstone
  layout : Layout t.slots
  exists_empty : ∃ i : Nat, t.slots[i]? = some .empty

/-- A table with exact counters has as many entries as it counts. -/
theorem Searchable.length_entries {t : Table} (h : t.Searchable) : t.entries.length = t.size :=
  (length_slotEntries t.slots).trans h.size_eq.symm

/-- If the entries and the tombstones are fewer than the slots, one slot is empty. -/
theorem exists_empty {t : Table} (hsize : t.size = t.slots.countP fun s => !s.isVacant)
    (htombstones : t.tombstones = t.slots.count .tombstone)
    (hused : t.size + t.tombstones < t.capacity) : ∃ i : Nat, t.slots[i]? = some .empty := by
  rw [hsize, htombstones, ← countP_nonempty] at hused
  obtain ⟨i, s, hi, hs⟩ := exists_of_countP_lt hused
  obtain rfl : s = .empty := by simpa using hs
  exact ⟨i, hi⟩

/-- In a valid table searches are right and end. -/
theorem Valid.searchable {t : Table} (h : t.Valid) : t.Searchable where
  size_eq := h.size_eq
  tombstones_eq := h.tombstones_eq
  layout := h.layout
  exists_empty := Table.exists_empty h.size_eq h.tombstones_eq h.used_lt

/-! ## What is found -/

/-- The entry that a search finds is the one with this key, wherever it is. -/
theorem Layout.find?_map_eq_some_iff {t : Table} (h : Layout t.slots) {key : Value} {e : Entry} :
    (t.find? key).map (·.2) = some e ↔ e ∈ t.entries ∧ e.key.same key = true := by
  have hmem : e ∈ t.entries ↔ ∃ i : Nat, t.slots[i]? = some (.occupied e) := mem_slotEntries
  rw [Option.map_eq_some_iff, hmem]
  constructor
  · rintro ⟨⟨i, f⟩, hfound, rfl⟩
    obtain ⟨hi, hsame⟩ := find?_sound hfound
    exact ⟨⟨i, hi⟩, hsame⟩
  · rintro ⟨⟨i, hi⟩, hsame⟩
    exact ⟨(i, e), h.find?_eq_some_iff.2 ⟨hi, hsame⟩, rfl⟩

/-- Searches find the same in two layouts of the same entries. -/
theorem Layout.find?_map_eq {t t' : Table} (h : Layout t.slots) (h' : Layout t'.slots)
    (hperm : t.entries.Perm t'.entries) (key : Value) :
    (t.find? key).map (·.2) = (t'.find? key).map (·.2) := by
  apply Option.ext
  intro e
  rw [h.find?_map_eq_some_iff, h'.find?_map_eq_some_iff, hperm.mem_iff]

/-- What a table says about a key depends on the entry that is found alone. -/
theorem answers_eq_of_find?_map_eq {t t' : Table} {key : Value}
    (h : (t.find? key).map (·.2) = (t'.find? key).map (·.2)) :
    t.contains key = t'.contains key ∧ t.get? key = t'.get? key := by
  constructor
  · have hsome := congrArg Option.isSome h
    rwa [Option.isSome_map, Option.isSome_map] at hsome
  · have hvalue := congrArg (Option.map (·.value)) h
    rwa [Option.map_map, Option.map_map] at hvalue

/-! ## Moving -/

/-- What searches need holds again in the new slots, and the entries are in them. -/
theorem Searchable.rehash {t : Table} (h : t.Searchable) {capacity : Nat}
    (hroom : t.size < capacity) :
    (t.rehash capacity).Searchable ∧ (t.rehash capacity).capacity = capacity ∧
      (t.rehash capacity).entries.Perm t.entries := by
  have hlength := h.length_entries
  obtain ⟨hlayout, hcapacity, hperm, hnone⟩ := h.layout.rehash capacity (by omega)
  have hsize : (t.rehash capacity).size =
      (t.rehash capacity).slots.countP fun s => !s.isVacant := by
    rw [← length_slotEntries]
    exact (hperm.length_eq.trans hlength).symm
  -- There are no tombstones, so the slots in use are the entries.
  have hused : (t.rehash capacity).size + (t.rehash capacity).tombstones <
      (t.rehash capacity).capacity := by
    rw [hcapacity]
    exact hroom
  have hempty := Table.exists_empty hsize hnone.symm hused
  exact ⟨⟨hsize, hnone.symm, hlayout, hempty⟩, hcapacity, hperm⟩

/-- A table with exact counters, a layout and an empty slot may move to any number of slots
that is greater than its size. It is such a table again, with the new number of slots and
without tombstones; it has the same entries, and as many of them as it counts; and for every
key a search finds the same entry or none, as before. -/
theorem rehash_keeps_entries {t : Table} (h : t.Searchable) {capacity : Nat}
    (hroom : t.size < capacity) :
    let moved := t.rehash capacity
    moved.Searchable ∧ moved.capacity = capacity ∧ moved.tombstones = 0 ∧ moved.size = t.size ∧
      moved.entries.Perm t.entries ∧
      ∀ key, (moved.find? key).map (·.2) = (t.find? key).map (·.2) ∧
        moved.contains key = t.contains key ∧ moved.get? key = t.get? key := by
  intro moved
  obtain ⟨hmoved, hcapacity, hperm⟩ := h.rehash hroom
  have hfound (key : Value) : (moved.find? key).map (·.2) = (t.find? key).map (·.2) :=
    hmoved.layout.find?_map_eq h.layout hperm key
  exact ⟨hmoved, hcapacity, rfl, rfl, hperm,
    fun key => ⟨hfound key, answers_eq_of_find?_map_eq (hfound key)⟩⟩

/-- Fifteen entries in thirty-two slots move to sixteen, which leaves a single one empty and is
far more than a table would take in by itself. From there they move to sixty-four. One of the
zeros stands for the other all the way. -/
theorem rehash_keeps_entries_fifteen :
    let key (i : Nat) : Value := .number ⟨i.toUInt64⟩
    let minus : Value := .number ⟨0x8000000000000000⟩
    let t := (answerAll Table.answer Table.empty
      ((List.range 16).map (fun i => .insert (key i) (key (i + 1))) ++ [.remove (key 7)])).2
    let full := t.rehash 16
    t.capacity = 32 ∧ t.Searchable ∧ t.size = 15 ∧ t.tombstones = 1 ∧
      full.Searchable ∧ full.capacity = 16 ∧ full.slots.count .empty = 1 ∧
      full.entries.Perm t.entries ∧ full.get? minus = some (key 1) ∧
      (full.rehash 64).capacity = 64 ∧ (full.rehash 64).entries.Perm t.entries ∧
      (full.rehash 64).get? minus = some (key 1) ∧ (full.rehash 64).contains (key 7) = false := by
  intro key minus t full
  have hempty : withCapacity 0 = .ok Table.empty := rfl
  have ht : t.Searchable := ((Valid.withCapacity hempty).answerAll _).searchable
  have hsize : t.size = 15 := by decide +kernel
  have hvalue : t.get? minus = some (key 1) := by decide +kernel
  have hgone : t.contains (key 7) = false := by decide +kernel
  obtain ⟨hfull, hcapacity, -, hkept, hperm, hanswers⟩ :=
    @rehash_keeps_entries t ht 16 (by rw [hsize]; decide)
  obtain ⟨-, hcapacity', -, -, hperm', hanswers'⟩ :=
    @rehash_keeps_entries full hfull 64 (by rw [hkept, hsize]; decide)
  obtain ⟨-, -, hget⟩ := hanswers minus
  obtain ⟨-, -, hget'⟩ := hanswers' minus
  obtain ⟨-, hcontains, -⟩ := hanswers (key 7)
  obtain ⟨-, hcontains', -⟩ := hanswers' (key 7)
  exact ⟨by decide +kernel, ht, hsize, by decide +kernel, hfull, hcapacity, by decide +kernel,
    hperm, hget.trans hvalue, hcapacity', hperm'.trans hperm, hget'.trans (hget.trans hvalue),
    hcontains'.trans (hcontains.trans hgone)⟩

end Table

end GradualScript
