import GradualScript.Proofs.Table.Probing

/-!
# Layouts

A layout is what the slots of a table have to be for searches to be right
(`Table.Layout`): no key is not-a-number, no two entries have the same key, and the walk
of each stored key reaches its slot. Then a search finds the entry of a key if there is
one (`Table.Layout.find?_eq_some_iff`), and an absent key has a vacant slot on its walk
as long as there is one at all (`Table.exists_vacantSlot`). Its entry goes to the first of
them (`Table.vacantSlot?_eq_some_iff`).

Three changes keep a layout: putting an entry with a new key into the vacant slot of its
walk, changing the value of an entry, and burying an entry under a tombstone. How the
entries and the counts change with one slot is stated once for any change
(`Table.slotEntries_set`, `Table.countP_set`).
-/

set_option autoImplicit false

namespace GradualScript

/-- What is collected from a list with one item changed, along with what the old item
gave, is what was collected before along with what the new item gives. -/
theorem filterMap_set_perm {α β : Type} (f : α → Option β) {l : List α} {i : Nat} {a : α}
    (h : l[i]? = some a) (b : α) :
    ((l.set i b).filterMap f ++ (f a).toList).Perm (l.filterMap f ++ (f b).toList) := by
  have hcons (x : α) (l : List α) : (x :: l).filterMap f = (f x).toList ++ l.filterMap f := by
    cases hx : f x <;> simp [hx]
  induction l generalizing i with
  | nil => simp at h
  | cons x l ih =>
    cases i with
    | zero =>
      obtain rfl : x = a := by simpa using h
      rw [List.set_cons_zero, hcons, hcons]
      refine List.perm_append_comm.trans ?_
      rw [List.append_assoc]
      exact List.perm_append_comm.append_left _
    | succ i =>
      rw [List.set_cons_succ, hcons, hcons, List.append_assoc, List.append_assoc]
      exact (ih (by simpa using h)).append_left _

namespace Table

open Probe

/-- A tombstone is vacant, so an entry may take its place. -/
@[simp] theorem isVacant_tombstone : Slot.tombstone.isVacant = true := rfl

/-- An occupied slot is not vacant. -/
@[simp] theorem isVacant_occupied (e : Entry) : (Slot.occupied e).isVacant = false := rfl

def slotEntries (slots : Array Slot) : List Entry := slots.toList.filterMap Slot.content?

/-- Only an occupied slot has a content, which is its entry. -/
theorem content?_eq_some_iff {s : Slot} {e : Entry} : s.content? = some e ↔ s = .occupied e := by
  cases s <;> simp [Slot.content?]

/-- The entries are the contents of the occupied slots. -/
theorem mem_slotEntries {slots : Array Slot} {e : Entry} :
    e ∈ slotEntries slots ↔ ∃ i : Nat, slots[i]? = some (.occupied e) := by
  simp only [slotEntries, List.mem_filterMap, content?_eq_some_iff, exists_eq_right]
  rw [List.mem_iff_getElem?]
  simp only [Array.getElem?_toList]

/-- There are as many entries as slots that are not vacant. -/
theorem length_slotEntries (slots : Array Slot) :
    (slotEntries slots).length = slots.countP fun s => !s.isVacant := by
  have hvacant (s : Slot) : s.content?.isSome = !s.isVacant := by
    cases s <;> rfl
  simp only [slotEntries, List.length_filterMap_eq_countP, hvacant, Array.countP_toList]

/-- A vacant slot has no content. -/
theorem content?_of_isVacant {s : Slot} (h : s.isVacant = true) : s.content? = none := by
  cases s <;> simp [Slot.isVacant, Slot.content?] at h ⊢

/-- To set a slot takes away the entry that was in it, if any, and adds the new one, if any. -/
theorem slotEntries_set {slots : Array Slot} {i : Nat} {s : Slot} (h : slots[i]? = some s)
    (s' : Slot) :
    (slotEntries (slots.setIfInBounds i s') ++ s.content?.toList).Perm
      (slotEntries slots ++ s'.content?.toList) := by
  simp only [slotEntries, Array.toList_setIfInBounds]
  exact filterMap_set_perm Slot.content? (by simpa using h) s'

/-- An entry that fills a vacant slot comes to those that were there. -/
theorem slotEntries_occupy {slots : Array Slot} {i : Nat} {s : Slot} (hi : slots[i]? = some s)
    (hs : s.isVacant = true) (e : Entry) :
    (slotEntries (slots.setIfInBounds i (.occupied e))).Perm (e :: slotEntries slots) := by
  have hset := slotEntries_set hi (.occupied e)
  rw [content?_of_isVacant hs] at hset
  simpa [Slot.content?] using hset.trans (List.perm_append_singleton _ _)

/-- To put an entry into an occupied slot exchanges it for the one that was there. -/
theorem slotEntries_revalue {slots : Array Slot} {i : Nat} {e : Entry}
    (hi : slots[i]? = some (.occupied e)) (f : Entry) :
    (e :: slotEntries (slots.setIfInBounds i (.occupied f))).Perm (f :: slotEntries slots) :=
  (List.perm_append_singleton _ _).symm.trans
    ((slotEntries_set hi (.occupied f)).trans (List.perm_append_singleton _ _))

/-- A tombstone in an occupied slot takes away the entry that was there. -/
theorem slotEntries_bury {slots : Array Slot} {i : Nat} {e : Entry}
    (hi : slots[i]? = some (.occupied e)) :
    (e :: slotEntries (slots.setIfInBounds i .tombstone)).Perm (slotEntries slots) := by
  have hset := slotEntries_set hi .tombstone
  simpa [Slot.content?] using (List.perm_append_singleton _ _).symm.trans hset

/-- To set a slot changes a count of slots by what the old one and the new one count for. -/
theorem countP_set (p : Slot → Bool) {slots : Array Slot} {i : Nat} {s : Slot}
    (h : slots[i]? = some s) (s' : Slot) :
    (slots.setIfInBounds i s').countP p + (if p s then 1 else 0) =
      slots.countP p + if p s' then 1 else 0 := by
  obtain ⟨hi, rfl⟩ := Array.getElem?_eq_some_iff.1 h
  have hle := @Array.boole_getElem_le_countP _ p slots i hi
  rw [Array.setIfInBounds, dif_pos hi, Array.countP_set hi]
  omega

/-- The slots that are not empty are the occupied ones and the tombstones. -/
theorem countP_nonempty (slots : Array Slot) :
    slots.countP (fun s => s != .empty) =
      slots.countP (fun s => !s.isVacant) + slots.count .tombstone := by
  obtain ⟨slots⟩ := slots
  simp only [Array.countP_toList.symm, Array.count_toList.symm]
  induction slots with
  | nil => rfl
  | cons s slots ih =>
    simp only [List.countP_cons, List.count_cons, ih]
    cases s <;> simp [Slot.isVacant] <;> omega

/-- If a property does not count all slots, some slot fails to have it. -/
theorem exists_of_countP_lt {p : Slot → Bool} {slots : Array Slot}
    (h : slots.countP p < slots.size) :
    ∃ (i : Nat) (s : Slot), slots[i]? = some s ∧ p s = false := by
  have hne : ¬ ∀ s ∈ slots, p s = true := fun hall => Nat.ne_of_lt h (Array.countP_eq_size.2 hall)
  simp only [Classical.not_forall, Bool.not_eq_true] at hne
  obtain ⟨s, hs, hfails⟩ := hne
  obtain ⟨i, hi⟩ := Array.mem_iff_getElem?.1 hs
  exact ⟨i, s, hi, hfails⟩

/-- Slots in which every search by key is right. -/
structure Layout (slots : Array Slot) : Prop where
  comparable : ∀ {i : Nat} {e : Entry}, slots[i]? = some (.occupied e) → e.key.isNaN = false
  distinct : ∀ {i j : Nat} {e f : Entry}, slots[i]? = some (.occupied e) →
    slots[j]? = some (.occupied f) → e.key.same f.key = true → i = j
  reached : ∀ {i : Nat} {e : Entry}, slots[i]? = some (.occupied e) → Reaches slots e.key i

/-! ## Searching -/

/-- A search for a key may stop at a slot with an entry only if the keys are the same. -/
theorem stopsAt_endsSearch {slots : Array Slot} {key : Value} {i : Nat} {e : Entry}
    (h : slots[i]? = some (.occupied e)) :
    stopsAt slots (Slot.endsSearch key) i = e.key.same key := by
  simp [stopsAt, h, Slot.endsSearch]

/-- The entry that a search finds is in the slot where it was found, and its key is the same. -/
theorem find?_sound {t : Table} {key : Value} {i : Nat} {e : Entry}
    (h : t.find? key = some (i, e)) :
    t.slots[i]? = some (.occupied e) ∧ e.key.same key = true := by
  simp only [find?, Option.bind_eq_bind, Option.bind_eq_some_iff, content?_eq_some_iff,
    Option.pure_def, Option.some.injEq, Prod.mk.injEq] at h
  obtain ⟨j, hfirst, s, hslot, f, rfl, rfl, rfl⟩ := h
  refine ⟨hslot, ?_⟩
  have hsize : 0 < t.slots.size := by
    obtain ⟨hj, -⟩ := Array.getElem?_eq_some_iff.1 hslot
    omega
  obtain ⟨n, -, -, hstop, -⟩ := (firstSlot?_eq_some_iff (key.slotIndex_lt hsize)).1 hfirst
  rwa [stopsAt_endsSearch hslot] at hstop

/-- A search finds an entry exactly if it is in its slot and its key is the same. -/
theorem Layout.find?_eq_some_iff {t : Table} (h : Layout t.slots) {key : Value} {i : Nat}
    {e : Entry} :
    t.find? key = some (i, e) ↔ t.slots[i]? = some (.occupied e) ∧ e.key.same key = true := by
  refine ⟨find?_sound, ?_⟩
  rintro ⟨hslot, hsame⟩
  obtain ⟨n, hn, hi, hpath⟩ := h.reached hslot
  have hstart := key.slotIndex_lt (Nat.zero_lt_of_lt hn)
  rw [Value.slotIndex_eq_of_same hsame] at hi hpath
  have hfirst : firstSlot? t.slots (Slot.endsSearch key) (key.slotIndex t.capacity) t.capacity
      = some i := by
    refine (firstSlot?_eq_some_iff hstart).2 ⟨n, hn, hi, ?_, ?_⟩
    · rw [stopsAt_endsSearch hslot, hsame]
    · intro m hm
      -- The slot on the way is no other entry's with this key, for then it would be slot `i`.
      have hm' : m < t.slots.size := Nat.lt_trans hm hn
      have hlt := position_lt (Nat.zero_lt_of_lt hn) (key.slotIndex t.slots.size) m
      have hsome := Array.getElem?_eq_getElem hlt
      cases hs : t.slots[position t.slots.size (key.slotIndex t.slots.size) m] with
      | empty => exact absurd (hsome.trans (congrArg some hs)) (hpath m hm)
      | tombstone => simp [stopsAt, hsome, hs, Slot.endsSearch]
      | occupied f =>
        rw [hs] at hsome
        rw [stopsAt_endsSearch hsome, Bool.eq_false_iff]
        intro hf
        have hpos := h.distinct hsome hslot (Value.same_of_same_same hf hsame)
        have := position_inj hstart hm' hn (hpos.trans hi.symm)
        omega
  simp [find?, hfirst, hslot, Slot.content?]

/-- In a layout nothing is found for a key exactly if no entry has it. -/
theorem Layout.find?_eq_none_iff {t : Table} (h : Layout t.slots) {key : Value} :
    t.find? key = none ↔ ∀ e ∈ t.entries, e.key.same key = false := by
  have hmem (e : Entry) : e ∈ t.entries ↔ _ := @mem_slotEntries t.slots e
  rw [Option.eq_none_iff_forall_ne_some]
  constructor
  · intro hnone e he
    obtain ⟨i, hslot⟩ := (hmem e).1 he
    rw [Bool.eq_false_iff]
    exact fun hsame => hnone (i, e) (h.find?_eq_some_iff.2 ⟨hslot, hsame⟩)
  · rintro habsent ⟨i, e⟩ hfound
    obtain ⟨hslot, hsame⟩ := find?_sound hfound
    simp [habsent e ((hmem e).2 ⟨i, hslot⟩)] at hsame

/-! ## Vacant slots -/

def Occupied (slots : Array Slot) (i : Nat) : Prop := ∃ e, slots[i]? = some (.occupied e)

/-- The first slot without an entry on the walk from a slot on. -/
def FirstVacant (slots : Array Slot) (start i : Nat) : Prop :=
  i < slots.size ∧ ¬ Occupied slots i ∧
    ∃ n, position slots.size start n = i ∧ ∀ m < n, Occupied slots (position slots.size start m)

/-- A search for a vacant slot stops where no entry is. -/
theorem stopsAt_isVacant_iff {slots : Array Slot} {i : Nat} (hi : i < slots.size) :
    stopsAt slots Slot.isVacant i = true ↔ ¬ Occupied slots i := by
  have hslot := Array.getElem?_eq_getElem hi
  cases hs : slots[i] with
  | empty | tombstone => simp [stopsAt, Occupied, hslot, hs, Slot.isVacant]
  | occupied e => simp [stopsAt, Occupied, hslot, hs]

/-- A search for a vacant slot over all slots finds the first one on the walk. -/
theorem firstSlot?_isVacant_eq_some_iff {slots : Array Slot} {start i : Nat}
    (hs : start < slots.size) :
    firstSlot? slots Slot.isVacant start slots.size = some i ↔ FirstVacant slots start i := by
  have hlt (m : Nat) := position_lt (Nat.zero_lt_of_lt hs) start m
  have hpassed (m : Nat) : stopsAt slots Slot.isVacant (position slots.size start m) = false ↔
      Occupied slots (position slots.size start m) := by
    rw [← Bool.not_eq_true, stopsAt_isVacant_iff (hlt m), Classical.not_not]
  rw [firstSlot?_eq_some_iff hs]
  constructor
  · rintro ⟨n, -, rfl, hstop, hbefore⟩
    exact ⟨hlt n, (stopsAt_isVacant_iff (hlt n)).1 hstop, n, rfl,
      fun m hm => (hpassed m).1 (hbefore m hm)⟩
  · rintro ⟨-, hvacant, n, rfl, hbefore⟩
    refine ⟨n, ?_, rfl, (stopsAt_isVacant_iff (hlt n)).2 hvacant,
      fun m hm => (hpassed m).2 (hbefore m hm)⟩
    -- A longer walk would have come to the slot before, and found it occupied.
    rw [← Nat.not_le]
    intro hle
    have hround : position slots.size start (n - slots.size) = position slots.size start n := by
      rw [position, position, ← Nat.add_mod_right]
      congr 1
      omega
    exact hvacant (hround ▸ hbefore (n - slots.size) (by omega))

/-- The slot where the entry of an absent key goes is the first vacant one on its walk. -/
theorem vacantSlot?_eq_some_iff {slots : Array Slot} {key : Value} {i : Nat} :
    vacantSlot? slots key = some i ↔ FirstVacant slots (key.slotIndex slots.size) i := by
  rcases Nat.eq_zero_or_pos slots.size with hzero | hpos
  · simp [vacantSlot?, FirstVacant, hzero, firstSlot?]
  · exact firstSlot?_isVacant_eq_some_iff (key.slotIndex_lt hpos)

/-- There is a vacant slot on every walk, or else all slots are occupied. -/
theorem exists_firstVacant {slots : Array Slot} {start : Nat} (hs : start < slots.size) :
    (∃ i, FirstVacant slots start i) ∨ ∀ i < slots.size, Occupied slots i := by
  cases hfirst : firstSlot? slots Slot.isVacant start slots.size with
  | some i => exact .inl ⟨i, (firstSlot?_isVacant_eq_some_iff hs).1 hfirst⟩
  | none =>
    right
    intro i hi
    have hnever := stopsAt_eq_false_of_firstSlot?_eq_none hs hfirst hi
    rwa [← Bool.not_eq_true, stopsAt_isVacant_iff hi, Classical.not_not] at hnever

/-- If some slot is vacant, every key has a vacant slot on its walk, and the walk reaches
it past occupied slots alone. -/
theorem exists_vacantSlot {slots : Array Slot} (key : Value) {j : Nat} {s : Slot}
    (hj : slots[j]? = some s) (hs : s.isVacant = true) :
    ∃ i s', vacantSlot? slots key = some i ∧ slots[i]? = some s' ∧ s'.isVacant = true ∧
      Reaches slots key i := by
  obtain ⟨hjlt, -⟩ := Array.getElem?_eq_some_iff.1 hj
  have hstart := key.slotIndex_lt (Nat.zero_lt_of_lt hjlt)
  cases hfirst : vacantSlot? slots key with
  | none =>
    have := stopsAt_eq_false_of_firstSlot?_eq_none hstart hfirst hjlt
    simp [stopsAt, hj, hs] at this
  | some i =>
    obtain ⟨n, hn, hi, hstop, hbefore⟩ := (firstSlot?_eq_some_iff hstart).1 hfirst
    obtain ⟨s', hs', hvacant⟩ : ∃ s', slots[i]? = some s' ∧ s'.isVacant = true := by
      simpa [stopsAt, Option.any_eq_true] using hstop
    refine ⟨i, s', rfl, hs', hvacant, n, hn, hi, ?_⟩
    intro m hm hempty
    have := hbefore m hm
    simp [stopsAt, hempty, Slot.isVacant] at this

/-! ## Changing one slot -/

/-- To set a slot leaves all others as they are. -/
theorem getElem?_set {slots : Array Slot} {i : Nat} {s : Slot} (h : slots[i]? = some s)
    (s' : Slot) (j : Nat) :
    (slots.setIfInBounds i s')[j]? = if i = j then some s' else slots[j]? := by
  obtain ⟨hi, -⟩ := Array.getElem?_eq_some_iff.1 h
  simp [Array.getElem?_setIfInBounds, hi]

/-- Empty slots are a layout. -/
theorem layout_emptySlots (capacity : Nat) : Layout (emptySlots capacity) := by
  have hfree {i : Nat} {e : Entry} : (emptySlots capacity)[i]? ≠ some (.occupied e) := by
    simp [emptySlots, Array.getElem?_replicate]
  exact ⟨fun h => absurd h hfree, fun h => absurd h hfree, fun h => absurd h hfree⟩

/-- A new key may be put into a vacant slot that its walk reaches. -/
theorem Layout.occupy {slots : Array Slot} (h : Layout slots) {i : Nat} {s : Slot} {e : Entry}
    (hi : slots[i]? = some s) (hreach : Reaches slots e.key i) (hnan : e.key.isNaN = false)
    (hnew : ∀ f ∈ slotEntries slots, f.key.same e.key = false) :
    Layout (slots.setIfInBounds i (.occupied e)) := by
  have hold {j : Nat} {f : Entry} (hf : slots[j]? = some (.occupied f)) :
      f.key.same e.key = false :=
    hnew f (mem_slotEntries.2 ⟨j, hf⟩)
  constructor
  · intro j f hf
    rw [getElem?_set hi] at hf
    split at hf
    · obtain rfl : e = f := by simpa using hf
      exact hnan
    · exact h.comparable hf
  · intro j k f g hf hg hsame
    rw [getElem?_set hi] at hf hg
    split at hf <;> split at hg
    · omega
    · obtain rfl : e = f := by simpa using hf
      simp [Value.same_comm e.key, hold hg] at hsame
    · obtain rfl : e = g := by simpa using hg
      simp [hold hf] at hsame
    · exact h.distinct hf hg hsame
  · intro j f hf
    refine Reaches.set ?_ i (by simp)
    rw [getElem?_set hi] at hf
    split at hf
    · obtain rfl : e = f := by simpa using hf
      subst_vars
      exact hreach
    · exact h.reached hf

/-- A layout is one still with a tombstone in an occupied slot, since no walk is cut short by
it. -/
theorem Layout.bury {slots : Array Slot} (h : Layout slots) {i : Nat} {e : Entry}
    (hi : slots[i]? = some (.occupied e)) : Layout (slots.setIfInBounds i .tombstone) := by
  have hold {j : Nat} {f : Entry}
      (hf : (slots.setIfInBounds i .tombstone)[j]? = some (.occupied f)) :
      slots[j]? = some (.occupied f) := by
    rw [getElem?_set hi] at hf
    split at hf
    · simp at hf
    · exact hf
  exact ⟨fun hf => h.comparable (hold hf), fun hf hg => h.distinct (hold hf) (hold hg),
    fun hf => (h.reached (hold hf)).set i (by simp)⟩

/-- A layout is one still with another value in an occupied slot. -/
theorem Layout.revalue {slots : Array Slot} (h : Layout slots) {i : Nat} {e : Entry}
    (hi : slots[i]? = some (.occupied e)) (value : Value) :
    Layout (slots.setIfInBounds i (.occupied { e with value })) := by
  have hold {j : Nat} {f : Entry}
      (hf : (slots.setIfInBounds i (.occupied { e with value }))[j]? = some (.occupied f)) :
      ∃ g, slots[j]? = some (.occupied g) ∧ g.key = f.key := by
    rw [getElem?_set hi] at hf
    split at hf
    · obtain rfl : { e with value } = f := by simpa using hf
      subst_vars
      exact ⟨e, hi, rfl⟩
    · exact ⟨f, hf, rfl⟩
  constructor
  · intro j f hf
    obtain ⟨g, hg, hkey⟩ := hold hf
    exact hkey ▸ h.comparable hg
  · intro j k f f' hf hf' hsame
    obtain ⟨g, hg, hkey⟩ := hold hf
    obtain ⟨g', hg', hkey'⟩ := hold hf'
    exact h.distinct hg hg' (by rwa [hkey, hkey'])
  · intro j f hf
    obtain ⟨g, hg, hkey⟩ := hold hf
    exact hkey ▸ (h.reached hg).set i (by simp)

end Table

end GradualScript
