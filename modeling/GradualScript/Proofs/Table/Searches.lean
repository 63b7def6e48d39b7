import GradualScript.Proofs.Table.Requests
import Mathlib.Data.List.Nodup

/-!
# Searches end

A search has nothing that bounds it. It goes on from slot to slot until it is at one where
it may stop, and `Probe.Search` lists the slots that it then has looked at; a search that
would go on forever is not in this relation. What a search with a budget gives is what the
search gives without one, as soon as the budget covers the slots of the list
(`Probe.Search.firstSlot?_eq`).

If there are slots where a search may stop, it comes to one of them before it is back where
it started. So it looks at no slot twice, and at no more than one besides those where it may
not stop (`Probe.exists_endsAt`). In a table that a run of requests has reached this bounds
the search for a key by the slots in use and one more, and the search for a vacant slot by
the entries and one more, in the slots at hand and in those that the entries are moved to
(`Table.searches_end`).
-/

set_option autoImplicit false

namespace GradualScript

namespace Probe

/-! ## Searches without a budget -/

/-- A search from a slot on looks at slots one after the other, the ones in the list, and
stops at the last of them. -/
inductive Search (slots : Array Slot) (stop : Slot → Bool) : Nat → List Nat → Nat → Prop where
  | here {i : Nat} {s : Slot} (hi : slots[i]? = some s) (hs : stop s = true) :
    Search slots stop i [i] i
  | onward {i found : Nat} {s : Slot} {visited : List Nat} (hi : slots[i]? = some s)
    (hs : stop s = false) (hrest : Search slots stop (next slots.size i) visited found) :
    Search slots stop i (i :: visited) found

variable {slots : Array Slot} {stop : Slot → Bool} {start found : Nat}

namespace Search

variable {visited : List Nat}

/-- A search ends at a slot where it may stop. -/
theorem exists_stop (h : Search slots stop start visited found) :
    ∃ s, slots[found]? = some s ∧ stop s = true := by
  induction h with
  | here hi hs => exact ⟨_, hi, hs⟩
  | onward _ _ _ ih => exact ih

/-- A budget that covers the slots of a search makes no difference to it. -/
theorem firstSlot?_eq (h : Search slots stop start visited found) {budget : Nat}
    (hbudget : visited.length ≤ budget) : firstSlot? slots stop start budget = some found := by
  induction h generalizing budget with
  | here hi hs =>
    cases budget with
    | zero => exact absurd hbudget (Nat.not_succ_le_zero _)
    | succ budget => simp [firstSlot?, hi, hs]
  | onward hi hs _ ih =>
    cases budget with
    | zero => exact absurd hbudget (Nat.not_succ_le_zero _)
    | succ budget => simpa [firstSlot?, hi, hs] using ih (Nat.le_of_succ_le_succ hbudget)

/-- The walk from a slot is a search that ends after the first steps that take it to where
it may stop. -/
theorem of_stopsAt (hs : start < slots.size) {n : Nat}
    (hstop : stopsAt slots stop (position slots.size start n) = true)
    (hbefore : ∀ m < n, stopsAt slots stop (position slots.size start m) = false) :
    Search slots stop start ((List.range (n + 1)).map (position slots.size start))
      (position slots.size start n) := by
  induction n generalizing start with
  | zero =>
    have hwalk : (List.range (0 + 1)).map (position slots.size start) = [start] := by
      simp [position_zero hs]
    rw [position_zero hs] at hstop
    rw [hwalk, position_zero hs]
    exact .here (Array.getElem?_eq_getElem hs) (by simpa [stopsAt, hs] using hstop)
  | succ n ih =>
    have hnext : next slots.size start < slots.size := Nat.mod_lt _ (Nat.zero_lt_of_lt hs)
    have hhere := hbefore 0 (Nat.succ_pos n)
    rw [position_zero hs] at hhere
    have hwalk : (List.range (n + 1 + 1)).map (position slots.size start) =
        start :: (List.range (n + 1)).map (position slots.size (next slots.size start)) := by
      simp [List.range_succ_eq_map (n := n + 1), position_zero hs, position_next]
    rw [hwalk, ← position_next]
    refine .onward (Array.getElem?_eq_getElem hs) (by simpa [stopsAt, hs] using hhere) ?_
    apply ih hnext
    · rw [position_next]
      exact hstop
    · intro m hm
      rw [position_next]
      exact hbefore (m + 1) (Nat.succ_lt_succ hm)

end Search

/-! ## Counting the slots of a search -/

/-- A walk that is no longer than there are slots comes to each of its slots once. -/
theorem nodup_positions {capacity n : Nat} (hs : start < capacity) (hn : n ≤ capacity) :
    ((List.range n).map (position capacity start)).Nodup := by
  refine List.nodup_range.map_on ?_
  intro i hi j hj hsame
  rw [List.mem_range] at hi hj
  exact position_inj hs (by omega) (by omega) hsame

/-- There are no more different slots with a property than are counted. -/
theorem length_le_countP {p : Slot → Bool} {is : List Nat} (hnodup : is.Nodup)
    (h : ∀ i ∈ is, stopsAt slots p i = true) : is.length ≤ slots.countP p := by
  have hcount (l : List Slot) :
      (List.range l.length).countP (fun i => l[i]?.any p) = l.countP p := by
    induction l with
    | nil => rfl
    | cons s l ih =>
      rw [List.length_cons, List.range_succ_eq_map, List.countP_cons, List.countP_map,
        List.countP_cons, ← ih]
      rfl
  have hsubset : is ⊆ (List.range slots.size).filter (stopsAt slots p) := by
    intro i hi
    have hlt : i < slots.size := by
      cases hslot : slots[i]? with
      | none => simpa [stopsAt, hslot] using h i hi
      | some s => exact (Array.getElem?_eq_some_iff.1 hslot).1
    exact List.mem_filter.2 ⟨List.mem_range.2 hlt, h i hi⟩
  have hslots := hcount slots.toList
  simp only [Array.length_toList, Array.getElem?_toList, Array.countP_toList] at hslots
  rw [← hslots, List.countP_eq_length_filter]
  exact hnodup.length_le_of_subset hsubset

/-- A search comes to its end at a slot, and looks at no slot twice and at no more than a
number of them. -/
def EndsAt (slots : Array Slot) (stop : Slot → Bool) (start bound found : Nat) : Prop :=
  ∃ visited, Search slots stop start visited found ∧ visited.Nodup ∧ visited.length ≤ bound

namespace EndsAt

variable {bound : Nat}

/-- A search that ends does so at a slot where it may stop. -/
theorem exists_stop (h : EndsAt slots stop start bound found) :
    ∃ s, slots[found]? = some s ∧ stop s = true := by
  obtain ⟨visited, hsearch, -, -⟩ := h
  exact hsearch.exists_stop

/-- A search that looks at no more than a number of slots looks at no more than a larger one. -/
theorem mono (h : EndsAt slots stop start bound found) {bound' : Nat} (hle : bound ≤ bound') :
    EndsAt slots stop start bound' found := by
  obtain ⟨visited, hsearch, hnodup, hlength⟩ := h
  exact ⟨visited, hsearch, hnodup, Nat.le_trans hlength hle⟩

/-- A search with a budget that covers one without a budget ends where that one does. -/
theorem firstSlot?_eq (h : EndsAt slots stop start bound found) {budget : Nat}
    (hle : bound ≤ budget) : firstSlot? slots stop start budget = some found := by
  obtain ⟨visited, hsearch, -, hlength⟩ := h
  exact hsearch.firstSlot?_eq (Nat.le_trans hlength hle)

end EndsAt

/-- A search comes to its end if it may stop at some slot, and then looks at most at the
slots where it may not stop and one more. -/
theorem exists_endsAt (hs : start < slots.size)
    (hroom : slots.countP (fun s => !stop s) < slots.size) :
    ∃ found, EndsAt slots stop start (slots.countP (fun s => !stop s) + 1) found := by
  obtain ⟨i, s, hi, hstop⟩ := Table.exists_of_countP_lt hroom
  cases hfirst : firstSlot? slots stop start slots.size with
  | none =>
    have hnever := stopsAt_eq_false_of_firstSlot?_eq_none hs hfirst
      (Array.getElem?_eq_some_iff.1 hi).1
    simp [stopsAt, hi] at hnever
    simp [hnever] at hstop
  | some found =>
    obtain ⟨n, hn, rfl, hstop, hbefore⟩ := (firstSlot?_eq_some_iff hs).1 hfirst
    refine ⟨_, _, .of_stopsAt hs hstop hbefore, nodup_positions hs hn, ?_⟩
    have hpassed : ∀ i ∈ (List.range n).map (position slots.size start),
        stopsAt slots (fun s => !stop s) i = true := by
      intro i hi
      obtain ⟨m, hm, rfl⟩ := List.mem_map.1 hi
      have hlt := position_lt (Nat.zero_lt_of_lt hs) start m
      simpa [stopsAt, hlt] using hbefore m (List.mem_range.1 hm)
    have hle := length_le_countP (nodup_positions hs (Nat.le_of_lt hn)) hpassed
    simpa using hle

end Probe

namespace Table

open Probe (EndsAt)

/-! ## The searches of a table -/

/-- The search for a key ends, within the slots in use and one more, and the table answers
with what is in the slot where it ends. -/
theorem Valid.exists_find {t : Table} (h : t.Valid) (key : Value) :
    ∃ found, EndsAt t.slots (Slot.endsSearch key) (key.slotIndex t.capacity)
        (t.size + t.tombstones + 1) found ∧
      t.find? key = (t.slots[found]?.bind Slot.content?).map fun e => (found, e) := by
  have hused := h.used_lt
  have hstart := key.slotIndex_lt (Nat.zero_lt_of_lt hused)
  have hcount : t.slots.countP (fun s => !s.endsSearch key) ≤ t.size + t.tombstones := by
    rw [h.size_eq, h.tombstones_eq, ← countP_nonempty]
    -- A search for any key may stop at an empty slot.
    refine Array.countP_mono_left fun s _ hs => ?_
    cases s <;> simp [Slot.endsSearch] at hs ⊢
  obtain ⟨found, hends⟩ := Probe.exists_endsAt hstart (Nat.lt_of_le_of_lt hcount hused)
  have hends := hends.mono (Nat.add_le_add_right hcount 1)
  refine ⟨found, hends, ?_⟩
  rw [find?, hends.firstSlot?_eq hused]
  cases hslot : t.slots[found]? with
  | none => simp [hslot]
  | some s => cases hcontent : s.content? <;> simp [hslot, hcontent]

/-- In slots with room the search for a vacant slot ends, within the entries and one more. -/
theorem exists_vacant {slots : Array Slot} (hroom : (slotEntries slots).length < slots.size)
    (key : Value) :
    ∃ found s, EndsAt slots Slot.isVacant (key.slotIndex slots.size)
        ((slotEntries slots).length + 1) found ∧
      vacantSlot? slots key = some found ∧ slots[found]? = some s ∧ s.isVacant = true := by
  have hlength := length_slotEntries slots
  rw [hlength] at hroom
  obtain ⟨found, hends⟩ := Probe.exists_endsAt (key.slotIndex_lt (Nat.zero_lt_of_lt hroom)) hroom
  obtain ⟨s, hslot, hvacant⟩ := hends.exists_stop
  exact ⟨found, s, hlength ▸ hends, hends.firstSlot?_eq hroom, hslot, hvacant⟩

/-- When the entries of a table are moved, the search for a place for each of them ends at
an empty slot, within the entries that have been moved before and one more. -/
theorem Valid.exists_empty {t : Table} (h : t.Valid) {capacity : Nat} (hroom : t.size ≤ capacity)
    {before after : List Entry} {e : Entry} (hentries : t.entries = before ++ e :: after) :
    let slots := before.foldl settle (emptySlots capacity)
    ∃ found, EndsAt slots Slot.isVacant (e.key.slotIndex capacity) (before.length + 1) found ∧
      vacantSlot? slots e.key = some found ∧ slots[found]? = some .empty := by
  intro slots
  have hlength := h.length_entries
  rw [hentries, List.length_append, List.length_cons] at hlength
  have hbefore : before.Sublist (slotEntries t.slots) := by
    show before.Sublist t.entries
    rw [hentries]
    exact List.sublist_append_left _ _
  have hsettled : Settled (emptySlots capacity) slots before :=
    (layout_emptySlots capacity).settleAll before (by simp; omega)
      (fun f hf => h.layout.comparable_entries (hbefore.subset hf))
      (h.layout.pairwise_entries.sublist hbefore) (by simp)
  have hsize : slots.size = capacity := hsettled.size_eq.trans (size_emptySlots capacity)
  have hmoved : (slotEntries slots).length = before.length := by
    simpa using hsettled.entries_perm.length_eq
  have hroom' : (slotEntries slots).length < slots.size := by omega
  obtain ⟨found, s, hends, hvacant, hslot, hs⟩ := exists_vacant hroom' e.key
  rw [hsize, hmoved] at hends
  refine ⟨found, hends, hvacant, ?_⟩
  -- The new slots have no tombstones.
  have htombstones := hsettled.tombstones_le
  rw [count_tombstone_emptySlots, Nat.le_zero, Array.count_eq_zero] at htombstones
  cases s with
  | empty => exact hslot
  | tombstone => exact absurd (Array.mem_of_getElem? hslot) htombstones
  | occupied f => simp at hs

/-- In any table that a run of requests has reached, and for any key, all searches that a
request makes end, and look at no slot twice. There is always a slot that is not in use, and
the walk from slot to slot is by the mask of the capacity, before and after room is made.
The search for the key looks at most at the slots in use and one more. After room has been
made, the search for a vacant slot looks at most at the entries and one more, and ends at a
slot that is empty or a tombstone. Whenever the entries are moved to new slots that are
enough for them, the search for a place for each of them ends at an empty slot. -/
theorem searches_end {requested : UInt64} {t₀ : Table} (h : withCapacity requested = .ok t₀)
    (rs : List Request) (key : Value) :
    let t := (answerAll Table.answer t₀ rs).2
    t.size + t.tombstones + 1 ≤ t.capacity ∧
      (∀ i, Probe.next t.capacity i = (i + 1) &&& (t.capacity - 1)) ∧
      (∀ i, Probe.next t.reserve.capacity i = (i + 1) &&& (t.reserve.capacity - 1)) ∧
      (∃ found, EndsAt t.slots (Slot.endsSearch key) (key.slotIndex t.capacity)
          (t.size + t.tombstones + 1) found ∧
        t.find? key = (t.slots[found]?.bind Slot.content?).map fun e => (found, e)) ∧
      (∃ found, EndsAt t.reserve.slots Slot.isVacant (key.slotIndex t.reserve.capacity)
          (t.size + 1) found ∧
        vacantSlot? t.reserve.slots key = some found ∧
        (t.reserve.slots[found]? = some .empty ∨ t.reserve.slots[found]? = some .tombstone)) ∧
      ∀ capacity, t.size ≤ capacity → ∀ before e after, t.entries = before ++ e :: after →
        let slots := before.foldl settle (emptySlots capacity)
        ∃ found, EndsAt slots Slot.isVacant (e.key.slotIndex capacity) (before.length + 1) found ∧
          vacantSlot? slots e.key = some found ∧ slots[found]? = some .empty := by
  intro t
  have hvalid : t.Valid := (Valid.withCapacity h).answerAll rs
  obtain ⟨hreserved, hkept, -⟩ := hvalid.reserve
  have hsize : (slotEntries t.reserve.slots).length = t.size :=
    hkept.length_eq.trans hvalid.length_entries
  have hroom := hreserved.used_lt
  rw [← hreserved.length_entries] at hroom
  refine ⟨hvalid.used_lt, Probe.next_of_isPowerOfTwo hvalid.power,
    Probe.next_of_isPowerOfTwo hreserved.power, hvalid.exists_find key, ?_, ?_⟩
  · obtain ⟨found, s, hends, hvacant, hslot, hs⟩ :=
      exists_vacant (Nat.lt_of_le_of_lt (Nat.le_add_right _ _) hroom) key
    rw [hsize] at hends
    refine ⟨found, hends, hvacant, ?_⟩
    cases s with
    | empty => exact .inl hslot
    | tombstone => exact .inr hslot
    | occupied e => simp at hs
  · intro capacity hcapacity before e after hentries
    exact hvalid.exists_empty hcapacity hentries

/-- Two entries are left among ten tombstones in sixteen slots, as few empty ones as there
can be. The search for not-a-number ends after at most thirteen slots. For one more entry
the other two are moved to slots without tombstones, where three slots are enough to find a
vacant one and two to move the second entry. -/
theorem searches_end_among_tombstones :
    let key (i : Nat) : Value := .number ⟨i.toUInt64⟩
    let nan : Value := .number ⟨0x7ff8000000000000⟩
    let rs := (List.range 12).map (fun i => Request.insert (key i) .nil) ++
      (List.range 10).map (fun i => Request.remove (key i))
    let t := (answerAll Table.answer Table.empty rs).2
    withCapacity 0 = .ok Table.empty ∧ t.capacity = 16 ∧ t.size = 2 ∧ t.tombstones = 10 ∧
      (∃ found, EndsAt t.slots (Slot.endsSearch nan) (nan.slotIndex 16) 13 found ∧
        t.find? nan = none) ∧
      (∃ found, EndsAt t.reserve.slots Slot.isVacant ((key 12).slotIndex 16) 3 found ∧
        t.reserve.slots[found]? = some .empty) ∧
      ∃ e f, t.entries = [e, f] ∧
        ∃ found, EndsAt (settle (emptySlots 16) e) Slot.isVacant (f.key.slotIndex 16) 2 found ∧
          (settle (emptySlots 16) e)[found]? = some .empty := by
  intro key nan rs t
  have hempty : withCapacity 0 = .ok Table.empty := rfl
  have hcapacity : t.capacity = 16 := by decide +kernel
  have hreserved : t.reserve.capacity = 16 := by decide +kernel
  have hsize : t.size = 2 := by decide +kernel
  have htombstones : t.tombstones = 10 := by decide +kernel
  obtain ⟨-, -, -, ⟨found, hends, -⟩, -, -⟩ := searches_end hempty rs nan
  obtain ⟨-, -, -, -, ⟨found', hends', -, hslot'⟩, hmoved⟩ := searches_end hempty rs (key 12)
  rw [hsize, htombstones, hcapacity] at hends
  rw [hsize, hreserved] at hends'
  refine ⟨hempty, hcapacity, hsize, htombstones, ⟨found, hends, by decide +kernel⟩,
    ⟨found', hends', hslot'.resolve_right ?_⟩, ?_⟩
  · -- Moving has left no tombstone.
    have hnone : Slot.tombstone ∉ t.reserve.slots := by decide +kernel
    exact fun htombstone => hnone (Array.mem_of_getElem? htombstone)
  · have hentries : ∃ e f, t.entries = [e, f] := by
      have htwo : t.entries.length = 2 := by decide +kernel
      exact List.length_eq_two.1 htwo
    obtain ⟨e, f, hef⟩ := hentries
    have hroom : t.size ≤ 16 := Nat.le_trans (Nat.le_of_eq hsize) (by decide)
    obtain ⟨found, hends, -, hslot⟩ := hmoved 16 hroom [e] f [] hef
    exact ⟨e, f, hef, found, hends, hslot⟩

end Table

end GradualScript
