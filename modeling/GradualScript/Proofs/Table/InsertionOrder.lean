import GradualScript.Proofs.Table.Filling
import GradualScript.Proofs.Table.Growth

/-!
# The order of insertions does not matter

Which key comes to which slot depends on the order in which keys are stored, but which slots
are occupied in the end does not. Two entries that settle one after the other occupy the same
two slots in either order (`Table.settle_settle`): if both walks come to the same vacant slot,
then whichever entry is second goes on from there. So the slots that a list of entries occupies
are the same for every order of the list (`Table.Alike.foldl_settle`).

As long as nothing is removed, the occupied slots of a table are those that its entries would
occupy in fresh slots, in any order (`Table.Compact`). Moving to more slots does not spoil
this, although the entries are moved in the order of the old slots. Two tables that have been
filled with the same entries therefore have the same size, capacity and occupied slots, and
find the same values (`Table.fill_perm_alike`).
-/

set_option autoImplicit false

namespace GradualScript

namespace Table

open Probe

/-! ## Slots that are occupied alike -/

/-- As many slots, of which the same ones are occupied. -/
structure Alike (slots slots' : Array Slot) : Prop where
  size_eq : slots.size = slots'.size
  occupied_iff (i : Nat) : Occupied slots i ↔ Occupied slots' i

namespace Alike

variable {slots slots' slots'' : Array Slot}

/-- Slots are occupied like themselves. -/
theorem refl (slots : Array Slot) : Alike slots slots := ⟨rfl, fun _ => Iff.rfl⟩

/-- Slots that are occupied like others are so the other way around. -/
theorem symm (h : Alike slots slots') : Alike slots' slots :=
  ⟨h.size_eq.symm, fun i => (h.occupied_iff i).symm⟩

/-- Slots that are occupied like others, which are occupied like a third, are occupied like the
third. -/
theorem trans (h : Alike slots slots') (h' : Alike slots' slots'') : Alike slots slots'' :=
  ⟨h.size_eq.trans h'.size_eq, fun i => (h.occupied_iff i).trans (h'.occupied_iff i)⟩

/-- The first vacant slot of a walk depends on which slots are occupied, and not on what is in
them. -/
theorem firstVacant_iff (h : Alike slots slots') (start i : Nat) :
    FirstVacant slots start i ↔ FirstVacant slots' start i := by
  simp only [FirstVacant, h.size_eq, h.occupied_iff]

end Alike

/-- With an entry in a slot, this slot is occupied and those that were before. -/
theorem occupied_set {slots : Array Slot} {i : Nat} (hi : i < slots.size) (e : Entry) (j : Nat) :
    Occupied (slots.setIfInBounds i (.occupied e)) j ↔ j = i ∨ Occupied slots j := by
  unfold Occupied
  rw [getElem?_set (Array.getElem?_eq_getElem hi)]
  by_cases hj : i = j
  · simp [hj]
  · simp [hj, Ne.symm hj]

/-- Slots that are occupied alike are so still with an entry in the same slot of both. -/
theorem Alike.set {slots slots' : Array Slot} (h : Alike slots slots') {i : Nat}
    (hi : i < slots.size) (e f : Entry) :
    Alike (slots.setIfInBounds i (.occupied e)) (slots'.setIfInBounds i (.occupied f)) := by
  have hi' : i < slots'.size := h.size_eq ▸ hi
  refine ⟨by simp [h.size_eq], fun j => ?_⟩
  rw [occupied_set hi, occupied_set hi', h.occupied_iff]

/-! ## The first vacant slot -/

/-- The first vacant slot on a walk stays so if another slot is occupied. -/
theorem FirstVacant.set {slots : Array Slot} {start i j : Nat} (hj : FirstVacant slots start j)
    (hi : i < slots.size) (hne : i ≠ j) (e : Entry) :
    FirstVacant (slots.setIfInBounds i (.occupied e)) start j := by
  obtain ⟨hlt, hvacant, n, hn, hbefore⟩ := hj
  simp only [FirstVacant, Array.size_setIfInBounds, occupied_set hi]
  exact ⟨hlt, not_or.2 ⟨Ne.symm hne, hvacant⟩, n, hn, fun m hm => .inr (hbefore m hm)⟩

/-- If the first vacant slot on a walk is occupied, the walk goes on from there. -/
theorem FirstVacant.onward {slots : Array Slot} {start i j : Nat} (hi : FirstVacant slots start i)
    {e : Entry} (hj : FirstVacant (slots.setIfInBounds i (.occupied e)) i j) :
    FirstVacant (slots.setIfInBounds i (.occupied e)) start j := by
  obtain ⟨hlt, -, m, hm, hbefore⟩ := hi
  obtain ⟨hjlt, hvacant, n, hn, hrest⟩ := hj
  rw [Array.size_setIfInBounds] at hn hrest
  rw [FirstVacant, Array.size_setIfInBounds]
  refine ⟨by simpa using hjlt, hvacant, m + n, ?_, fun k hk => ?_⟩
  · rw [position_add, hm, hn]
  · rcases Nat.lt_or_ge k m with hkm | hkm
    · exact (occupied_set hlt e _).2 (.inr (hbefore k hkm))
    · have hwalk : position slots.size start k = position slots.size i (k - m) := by
        rw [← hm, ← position_add, Nat.add_sub_cancel' hkm]
      rw [hwalk]
      exact hrest (k - m) (by omega)

/-! ## Settling entries -/

/-- An entry settles in the first vacant slot of its walk. -/
theorem settle_of_firstVacant {slots : Array Slot} {e : Entry} {capacity i : Nat}
    (hsize : slots.size = capacity) (h : FirstVacant slots (e.key.slotIndex capacity) i) :
    settle slots e = slots.setIfInBounds i (.occupied e) := by
  rw [settle, vacantSlot?_eq_some_iff.2 (hsize ▸ h)]

/-- In slots that are all occupied nothing settles. -/
theorem settle_of_full {slots : Array Slot} (h : ∀ i < slots.size, Occupied slots i) (e : Entry) :
    settle slots e = slots := by
  have hnone : vacantSlot? slots e.key = none := by
    rw [Option.eq_none_iff_forall_ne_some]
    intro i hi
    obtain ⟨hlt, hvacant, -⟩ := vacantSlot?_eq_some_iff.1 hi
    exact hvacant (h i hlt)
  rw [settle, hnone]

/-- An entry finds a vacant slot to settle in, or else all slots are occupied. -/
theorem exists_firstVacant_key (slots : Array Slot) (key : Value) :
    (∃ i, FirstVacant slots (key.slotIndex slots.size) i) ∨ ∀ i < slots.size, Occupied slots i := by
  rcases Nat.eq_zero_or_pos slots.size with hzero | hpos
  · exact .inr fun i hi => absurd hi (by omega)
  · exact exists_firstVacant (key.slotIndex_lt hpos)

/-- The same entry settles in the same slot where slots are occupied alike. -/
theorem Alike.settle {slots slots' : Array Slot} (h : Alike slots slots') (e : Entry) :
    Alike (settle slots e) (settle slots' e) := by
  rcases exists_firstVacant_key slots e.key with ⟨i, hi⟩ | hfull
  · have hi' := (h.firstVacant_iff _ i).1 hi
    rw [settle_of_firstVacant rfl hi, settle_of_firstVacant h.size_eq.symm hi']
    exact h.set hi.1 e e
  · have hfull' : ∀ i < slots'.size, Occupied slots' i := fun i hi =>
      (h.occupied_iff i).1 (hfull i (h.size_eq ▸ hi))
    rw [settle_of_full hfull, settle_of_full hfull']
    exact h

/-- Two entries that come to the same vacant slot occupy it and, on the walk from there, the
next one, whichever of them is first. -/
theorem settle_settle_of_meet {slots : Array Slot} {e f : Entry} {i : Nat}
    (he : FirstVacant slots (e.key.slotIndex slots.size) i)
    (hf : FirstVacant slots (f.key.slotIndex slots.size) i) :
    Alike (settle (settle slots e) f) (settle (settle slots f) e) := by
  rw [settle_of_firstVacant rfl he, settle_of_firstVacant rfl hf]
  have halike := (Alike.refl slots).set he.1 e f
  have hsize (g : Entry) : (slots.setIfInBounds i (.occupied g)).size = slots.size := by simp
  have hlt : i < (slots.setIfInBounds i (.occupied e)).size := (hsize e).symm ▸ he.1
  rcases exists_firstVacant hlt with ⟨j, hj⟩ | hfull
  · have hj' := (halike.firstVacant_iff i j).1 hj
    rw [settle_of_firstVacant (hsize e) (hf.onward hj),
      settle_of_firstVacant (hsize f) (he.onward hj')]
    exact halike.set hj.1 f e
  · have hfull' : ∀ j < (slots.setIfInBounds i (.occupied f)).size,
        Occupied (slots.setIfInBounds i (.occupied f)) j := fun j hj =>
      (halike.occupied_iff j).1 (hfull j (halike.size_eq ▸ hj))
    rw [settle_of_full hfull, settle_of_full hfull']
    exact halike

/-- Two entries occupy the same slots in either order. -/
theorem settle_settle (slots : Array Slot) (e f : Entry) :
    Alike (settle (settle slots e) f) (settle (settle slots f) e) := by
  rcases exists_firstVacant_key slots e.key with ⟨i, hi⟩ | hfull
  · rcases exists_firstVacant_key slots f.key with ⟨j, hj⟩ | hfull
    · by_cases hij : i = j
      · exact settle_settle_of_meet hi (hij ▸ hj)
      · -- The walks come to different slots, and neither entry is in the way of the other.
        have hsize (k : Nat) (g : Entry) :
            (slots.setIfInBounds k (.occupied g)).size = slots.size := by simp
        rw [settle_of_firstVacant rfl hi, settle_of_firstVacant rfl hj,
          settle_of_firstVacant (hsize i e) (hj.set hi.1 hij e),
          settle_of_firstVacant (hsize j f) (hi.set hj.1 (Ne.symm hij) f)]
        refine ⟨by simp, fun k => ?_⟩
        rw [occupied_set (by simpa using hj.1), occupied_set hi.1,
          occupied_set (by simpa using hi.1), occupied_set hj.1]
        exact or_left_comm
    · exact absurd (hfull i hi.1) hi.2.1
  · simp only [settle_of_full hfull]
    exact .refl slots

/-- Entries that settle in slots that are occupied alike, in the same order, leave them occupied
alike. -/
theorem Alike.foldl_settle_self {slots slots' : Array Slot} (h : Alike slots slots')
    (es : List Entry) : Alike (es.foldl Table.settle slots) (es.foldl Table.settle slots') := by
  induction es generalizing slots slots' with
  | nil => exact h
  | cons e es ih => exact ih (h.settle e)

/-- The entries of a list occupy the same slots in every order. -/
theorem Alike.foldl_settle {es es' : List Entry} (hperm : es.Perm es')
    {slots slots' : Array Slot} (h : Alike slots slots') :
    Alike (es.foldl Table.settle slots) (es'.foldl Table.settle slots') := by
  induction hperm generalizing slots slots' with
  | nil => exact h
  | cons e _ ih => exact ih (h.settle e)
  | swap e f es =>
    exact Alike.foldl_settle_self ((settle_settle slots f e).trans ((h.settle e).settle f)) es
  | trans _ _ ih ih' => exact (ih h).trans (ih' (.refl slots'))

/-! ## Compact tables -/

/-- The occupied slots are those that the entries would occupy in fresh slots. -/
def Compact (t : Table) : Prop := Alike t.slots (t.rehash t.capacity).slots

/-- A table is compact if its slots are occupied as they are after its entries have settled in
empty ones. -/
theorem compact_iff {t : Table} :
    t.Compact ↔ Alike t.slots (t.entries.foldl settle (emptySlots t.capacity)) :=
  Iff.rfl

/-- A table without entries is compact. -/
theorem Compact.of_no_entries {t : Table} (h : t.entries = []) : t.Compact := by
  rw [compact_iff, h]
  refine ⟨(size_emptySlots t.capacity).symm, fun i => ?_⟩
  have hnone {slots : Array Slot} (hslots : slotEntries slots = []) : ¬ Occupied slots i := by
    rintro ⟨e, he⟩
    have hmem := mem_slotEntries.2 ⟨i, he⟩
    simp [hslots] at hmem
  exact iff_of_false (hnone h) (hnone (slotEntries_emptySlots t.capacity))

/-- Moving the entries to enough slots leaves a compact table, whatever it was before. -/
theorem Layout.compact_rehash {t : Table} (h : Layout t.slots) {capacity : Nat}
    (hroom : t.entries.length ≤ capacity) : (t.rehash capacity).Compact := by
  obtain ⟨-, hcapacity, hperm, -⟩ := h.rehash capacity hroom
  rw [compact_iff, hcapacity]
  exact Alike.foldl_settle hperm.symm (.refl _)

/-- A compact table that makes room is compact still. -/
theorem Valid.compact_reserve {t : Table} (h : t.Valid) (hcompact : t.Compact) :
    t.reserve.Compact := by
  have hlength := h.length_entries
  have hload := h.load
  rcases Nat.lt_or_ge (t.capacity * 3) ((t.size + t.tombstones + 1) * 4) with hover | hroom
  · rw [reserve_of_overloaded hover]
    exact h.layout.compact_rehash (by split <;> omega)
  · rw [reserve_of_room hroom]
    exact hcompact

/-- A compact table stays compact if a new entry is placed. -/
theorem Valid.compact_place {t : Table} (h : t.Valid) (hcompact : t.Compact) {e : Entry}
    (hroom : (t.size + t.tombstones + 1) * 4 ≤ t.capacity * 3) (hnan : e.key.isNaN = false)
    (hnew : ∀ f ∈ t.entries, f.key.same e.key = false) : (t.place e).Compact := by
  obtain ⟨-, hperm⟩ := h.place hroom hnan hnew
  have hlast : (t.place e).entries.Perm (t.entries ++ [e]) :=
    hperm.trans (List.perm_append_singleton e t.entries).symm
  -- The order of the entries makes no difference, so the new one may settle last.
  have hfresh := Alike.foldl_settle hlast (.refl (emptySlots t.capacity))
  rw [List.foldl_append] at hfresh
  rw [compact_iff, capacity_place]
  exact (hcompact.settle e).trans hfresh.symm

/-- A compact table that takes in an entry with a new key is compact still. -/
theorem Valid.compact_add {t : Table} (h : t.Valid) (hcompact : t.Compact) {e : Entry}
    (hnan : e.key.isNaN = false) (hnew : ∀ f ∈ t.entries, f.key.same e.key = false) :
    (t.reserve.place e).Compact := by
  obtain ⟨hreserved, hperm, hroom⟩ := h.reserve
  exact hreserved.compact_place (h.compact_reserve hcompact) hroom hnan
    fun f hf => hnew f (hperm.subset hf)

end Table

/-! ## Filling -/

/-- The capacity after so many new entries have been stored in a table of some capacity and
size. -/
def Capacity.grown (capacity size : Nat) : Nat → Nat
  | 0 => capacity
  | n + 1 => grown (if overloaded (size + 1) capacity then capacity * 2 else capacity) (size + 1) n

namespace Table

/-- What storing new entries gives: the capacity depends only on how many they are, and the
occupied slots only on what is there in the end. -/
structure Filled (t t' : Table) (es : List Entry) : Prop where
  valid : t'.Valid
  compact : t'.Compact
  entries_perm : t'.entries.Perm (es ++ t.entries)
  capacity_eq : t'.capacity = Capacity.grown t.capacity t.size es.length

/-- A compact table can be filled with new entries that have different keys. -/
theorem Valid.exists_filled {t : Table} (h : t.Valid) (hcompact : t.Compact) {es : List Entry}
    (hnan : ∀ e ∈ es, e.key.isNaN = false)
    (hdistinct : es.Pairwise fun e f => e.key.same f.key = false)
    (hnew : ∀ e ∈ es, ∀ f ∈ t.entries, f.key.same e.key = false) :
    ∃ t', t.fill es = .ok t' ∧ t.Filled t' es := by
  induction es generalizing t with
  | nil => exact ⟨t, rfl, h, hcompact, List.Perm.refl _, rfl⟩
  | cons e es ih =>
    rw [List.forall_mem_cons] at hnan hnew
    rw [List.pairwise_cons] at hdistinct
    obtain ⟨hvalid, hperm⟩ := h.add hnan.1 hnew.1
    have hrest : ∀ f ∈ es, ∀ g ∈ (t.reserve.place e).entries, g.key.same f.key = false := by
      intro f hf g hg
      rcases List.mem_cons.1 (hperm.subset hg) with rfl | hg
      · exact hdistinct.1 f hf
      · exact hnew.2 f hf g hg
    obtain ⟨t', hfill, hfilled⟩ :=
      ih hvalid (h.compact_add hcompact hnan.1 hnew.1) hnan.2 hdistinct.2 hrest
    refine ⟨t', ?_, hfilled.valid, hfilled.compact, ?_, ?_⟩
    · rw [fill, insert_of_absent e.value hnan.1 (h.contains_eq_false_iff.2 hnew.1)]
      exact hfill
    · exact hfilled.entries_perm.trans ((hperm.append_left es).trans List.perm_middle)
    · rw [hfilled.capacity_eq, capacity_place, size_place, size_reserve, h.capacity_reserve]
      rfl

/-- New entries, none of them with not-a-number as key and no two with the same key, are stored
in a fresh table in two orders. Both ways of filling it succeed, however often the tables grow.
They lead to tables of the same size and capacity that find the same value under every key and
have the same slots occupied. -/
theorem fill_perm_alike {requested : UInt64} {t₀ : Table} (h : withCapacity requested = .ok t₀)
    {es es' : List Entry} (hperm : es.Perm es') (hnan : ∀ e ∈ es, e.key.isNaN = false)
    (hdistinct : es.Pairwise fun e f => e.key.same f.key = false) :
    ∃ t t', t₀.fill es = .ok t ∧ t₀.fill es' = .ok t' ∧ t.size = t'.size ∧
      t.capacity = t'.capacity ∧ (∀ key, t.get? key = t'.get? key) ∧
      {i | Occupied t.slots i} = {i | Occupied t'.slots i} := by
  have hvalid := Valid.withCapacity h
  have hentries : t₀.entries = [] := List.perm_nil.1 (represents_nil h).perm
  have hcompact := Compact.of_no_entries hentries
  have hdistinct' : es'.Pairwise fun e f => e.key.same f.key = false :=
    (hperm.pairwise_iff fun {e f} hef => Value.same_comm f.key e.key ▸ hef).1 hdistinct
  obtain ⟨t, hfill, hfilled⟩ := hvalid.exists_filled hcompact hnan hdistinct (by simp [hentries])
  obtain ⟨t', hfill', hfilled'⟩ := hvalid.exists_filled hcompact
    (fun e he => hnan e (hperm.symm.subset he)) hdistinct' (by simp [hentries])
  have hsame : t.entries.Perm t'.entries :=
    hfilled.entries_perm.trans ((hperm.append_right _).trans hfilled'.entries_perm.symm)
  have hcapacity : t.capacity = t'.capacity := by
    rw [hfilled.capacity_eq, hfilled'.capacity_eq, hperm.length_eq]
  refine ⟨t, t', hfill, hfill', ?_, hcapacity, fun key => ?_, Set.ext fun i => ?_⟩
  · rw [← hfilled.valid.length_entries, ← hfilled'.valid.length_entries, hsame.length_eq]
  · have hleft : t.Represents t'.entries := ⟨hfilled.valid, hsame⟩
    have hright : t'.Represents t'.entries := ⟨hfilled'.valid, .refl _⟩
    rw [hleft.get?_eq, hright.get?_eq]
  · have hfresh : Alike (t.entries.foldl settle (emptySlots t.capacity))
        (t'.entries.foldl settle (emptySlots t'.capacity)) :=
      hcapacity ▸ Alike.foldl_settle hsame (.refl _)
    exact (hfilled.compact.trans (hfresh.trans hfilled'.compact.symm)).occupied_iff i

/-- Thirteen numbers whose walks all start at one of sixteen slots are stored forwards and
backwards. They end in thirty-two slots, where there are two starts and the walks from the
second go around the end. Most of the keys are in different slots of the two tables, but the
same slots are occupied, and the last key leads to the same value in both. -/
theorem fill_perm_alike_thirteen :
    let key (i : Nat) : Value := .number ⟨(16 * i).toUInt64⟩
    let es := (List.range 13).map fun i => (⟨key i, .boolean (i % 2 == 0)⟩ : Entry)
    withCapacity 3 = .ok Table.empty ∧ (∀ i < 13, (key i).slotIndex 16 = 12) ∧
      ∃ t t', Table.empty.fill es = .ok t ∧ Table.empty.fill es.reverse = .ok t' ∧
        t.slots ≠ t'.slots ∧ t.size = 13 ∧ t'.size = 13 ∧ t.capacity = 32 ∧ t'.capacity = 32 ∧
        (∀ key, t.get? key = t'.get? key) ∧ t.get? (key 12) = some (.boolean true) ∧
        t'.get? (key 12) = some (.boolean true) ∧
        {i | Occupied t.slots i} = {i | Occupied t'.slots i} := by
  intro key es
  have hempty : withCapacity 3 = .ok Table.empty := rfl
  obtain ⟨t, t', hfill, hfill', hsize, hcapacity, hget, hoccupied⟩ :=
    fill_perm_alike hempty (List.reverse_perm es).symm (by decide +kernel) (by decide +kernel)
  let outline (filled : Except TableError Table) :=
    filled.toOption.map fun t => (t.size, t.capacity)
  have houtline : outline (Table.empty.fill es) = some (13, 32) := by decide +kernel
  have hslots : (Table.empty.fill es).toOption.map (·.slots) ≠
      (Table.empty.fill es.reverse).toOption.map (·.slots) := by decide +kernel
  have hlast : (Table.empty.fill es).toOption.bind (·.get? (key 12)) = some (.boolean true) := by
    decide +kernel
  rw [hfill, hfill'] at hslots
  rw [hfill] at houtline hlast
  obtain ⟨hthirteen, hdoubled⟩ := Prod.mk.inj (Option.some.inj houtline)
  refine ⟨hempty, by decide +kernel, t, t', hfill, hfill', fun heq => hslots (congrArg some heq),
    hthirteen, hsize ▸ hthirteen, hdoubled, hcapacity ▸ hdoubled, hget, hlast,
    (hget (key 12)).symm.trans hlast, hoccupied⟩

end Table

end GradualScript
