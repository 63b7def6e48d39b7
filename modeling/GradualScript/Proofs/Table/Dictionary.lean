import GradualScript.Proofs.Table.Requests

/-!
# Tables are dictionaries

A dictionary is a list of entries with different keys, none of them not-a-number
(`Dictionary.Proper`). It answers requests by looking through the list. Nothing of slots,
walks, tombstones or capacities is left.

A table represents a dictionary if it is valid and its entries are those of the
dictionary in some order. Requests keep this, and both give the same answers
(`Table.Represents.answer`), so from a fresh table and the empty dictionary on they can
not be told apart by any run (`Table.answers_as_dictionary`).
-/

set_option autoImplicit false

namespace GradualScript

/-- The entries of a table, in no particular order. -/
abbrev Dictionary : Type := List Entry

namespace Dictionary

/-- The entry of a key. -/
def holding? (d : Dictionary) (key : Value) : Option Entry := d.find? fun e => e.key.same key

/-- The dictionary with another value under a key, if the key is there. The stored key
stays. -/
def assign (d : Dictionary) (key value : Value) : Dictionary :=
  d.map fun e => if e.key.same key then { e with value } else e

def discard (d : Dictionary) (key : Value) : Dictionary := d.filter fun e => !e.key.same key

def answer (d : Dictionary) : Request → Answer × Dictionary
  | .insert key value =>
    if key.isNaN then (.inserted (.error .nanKey), d)
    else
      match d.holding? key with
      | some e => (.inserted (.ok (some e.value)), d.assign key value)
      | none => (.inserted (.ok none), ⟨key, value⟩ :: d)
  | .get key => (.value ((d.holding? key).map (·.value)), d)
  | .replace key value => (.value ((d.holding? key).map (·.value)), d.assign key value)
  | .contains key => (.known (d.holding? key).isSome, d)
  | .remove key => (.value ((d.holding? key).map (·.value)), d.discard key)

/-- The keys are different from one another, and none is not-a-number. -/
structure Proper (d : Dictionary) : Prop where
  distinct : d.Pairwise fun e f => e.key.same f.key = false
  comparable : ∀ e ∈ d, e.key.isNaN = false

/-- A dictionary is proper in any order of its entries. -/
theorem Proper.perm {d d' : Dictionary} (h : d.Proper) (hperm : d.Perm d') : d'.Proper where
  distinct := (hperm.pairwise_iff fun {e f} hef => Value.same_comm f.key e.key ▸ hef).1 h.distinct
  comparable := fun e he => h.comparable e (hperm.symm.subset he)

/-- A new value for a key that is absent changes nothing. -/
theorem assign_of_absent {d : Dictionary} {key : Value} (h : ∀ e ∈ d, e.key.same key = false)
    (value : Value) : d.assign key value = d := by
  have hsame : d.assign key value = d.map id := by
    apply List.map_congr_left
    intro e he
    simp [h e he]
  exact hsame.trans (List.map_id d)

/-- To discard a key that is absent changes nothing. -/
theorem discard_of_absent {d : Dictionary} {key : Value} (h : ∀ e ∈ d, e.key.same key = false) :
    d.discard key = d := by
  apply List.filter_eq_self.2
  intro e he
  simp [h e he]

/-- An entry may be put in front of the others, none of which has its key. -/
theorem Proper.exists_rest {d : Dictionary} (h : d.Proper) {e : Entry} (he : e ∈ d)
    {key : Value} (hsame : e.key.same key = true) :
    ∃ rest, d.Perm (e :: rest) ∧ ∀ f ∈ rest, f.key.same key = false := by
  have hperm := List.perm_cons_erase he
  refine ⟨d.erase e, hperm, ?_⟩
  intro f hf
  have hother := List.rel_of_pairwise_cons (h.perm hperm).distinct hf
  rw [Bool.eq_false_iff]
  intro hfsame
  simp [Value.same_of_same_same hsame hfsame] at hother

/-- A new value under a key changes the one entry with this key, and leaves the rest. -/
theorem assign_perm {d rest : Dictionary} {e : Entry} {key : Value} (hperm : d.Perm (e :: rest))
    (hsame : e.key.same key = true) (hrest : ∀ f ∈ rest, f.key.same key = false)
    (value : Value) : (d.assign key value).Perm ({ e with value } :: rest) := by
  have hassign : assign (e :: rest) key value = { e with value } :: assign rest key value := by
    simp [assign, hsame]
  rw [assign_of_absent hrest] at hassign
  exact hassign ▸ hperm.map _

/-- To discard a key takes away the one entry with this key, and leaves the rest. -/
theorem discard_perm {d rest : Dictionary} {e : Entry} {key : Value} (hperm : d.Perm (e :: rest))
    (hsame : e.key.same key = true) (hrest : ∀ f ∈ rest, f.key.same key = false) :
    (d.discard key).Perm rest := by
  have hdiscard : discard (e :: rest) key = discard rest key := by
    simp [discard, hsame]
  rw [discard_of_absent hrest] at hdiscard
  exact hdiscard ▸ hperm.filter _

/-- The entry that is found for a key is in the dictionary, and its key is the same. -/
theorem holding?_sound {d : Dictionary} {key : Value} {e : Entry} (h : d.holding? key = some e) :
    e ∈ d ∧ e.key.same key = true := by
  rw [holding?] at h
  exact ⟨List.mem_of_find?_eq_some h, by simpa using List.find?_some h⟩

/-- In a proper dictionary an entry is found for a key exactly if it is there and its key is the
same, since no other entry has that key. -/
theorem Proper.holding?_eq_some_iff {d : Dictionary} (h : d.Proper) {key : Value} {e : Entry} :
    d.holding? key = some e ↔ e ∈ d ∧ e.key.same key = true := by
  refine ⟨holding?_sound, ?_⟩
  rintro ⟨he, hsame⟩
  cases hfound : d.holding? key with
  | none => simp [List.find?_eq_none.1 hfound e he] at hsame
  | some f =>
    obtain ⟨rest, hperm, hrest⟩ := h.exists_rest he hsame
    obtain ⟨hf, hfsame⟩ := holding?_sound hfound
    rcases List.mem_cons.1 (hperm.subset hf) with rfl | hf
    · rfl
    · simp [hrest f hf] at hfsame

/-- Nothing is found for a key exactly if no entry has it. -/
theorem holding?_eq_none_iff {d : Dictionary} {key : Value} :
    d.holding? key = none ↔ ∀ e ∈ d, e.key.same key = false := by
  simp [holding?, List.find?_eq_none]

end Dictionary

namespace Table

open Dictionary (Proper)

/-- The entries of a valid table are a proper dictionary. -/
theorem Valid.proper {t : Table} (h : t.Valid) : Proper t.entries where
  distinct := h.layout.pairwise_entries
  comparable := fun _ he => h.layout.comparable_entries he

/-- A table stands for a dictionary if it is valid and has the same entries. -/
structure Represents (t : Table) (d : Dictionary) : Prop where
  valid : t.Valid
  perm : t.entries.Perm d

/-- A dictionary that a table stands for is proper. -/
theorem Represents.proper {t : Table} {d : Dictionary} (h : t.Represents d) : d.Proper :=
  h.valid.proper.perm h.perm

/-- A search in the table finds what a search in the dictionary finds. -/
theorem Represents.find?_map {t : Table} {d : Dictionary} (h : t.Represents d) (key : Value) :
    (t.find? key).map (·.2) = d.holding? key := by
  cases hfound : t.find? key with
  | none =>
    have habsent := h.valid.layout.find?_eq_none_iff.1 hfound
    symm
    rw [Option.map_none, Dictionary.holding?_eq_none_iff]
    intro e he
    exact habsent e (h.perm.symm.subset he)
  | some found =>
    obtain ⟨i, e⟩ := found
    obtain ⟨hslot, hsame⟩ := find?_sound hfound
    refine (h.proper.holding?_eq_some_iff.2 ⟨?_, hsame⟩).symm
    exact h.perm.subset (mem_slotEntries.2 ⟨i, hslot⟩)

/-- A table gives the value that the dictionary holds under a key. -/
theorem Represents.get?_eq {t : Table} {d : Dictionary} (h : t.Represents d) (key : Value) :
    t.get? key = (d.holding? key).map (·.value) := by
  rw [← h.find?_map, Option.map_map]
  rfl

/-- A table knows the keys that the dictionary holds. -/
theorem Represents.contains_eq {t : Table} {d : Dictionary} (h : t.Represents d) (key : Value) :
    t.contains key = (d.holding? key).isSome := by
  rw [← h.find?_map, Option.isSome_map]
  rfl

/-- The entry that a table finds under a key is the one in the dictionary, which stands
before the entries of all other keys. -/
theorem Represents.exists_rest {t : Table} {d : Dictionary} (h : t.Represents d) {key : Value}
    {i : Nat} {e : Entry} (hfound : t.find? key = some (i, e)) :
    d.holding? key = some e ∧ ∃ rest, d.Perm (e :: rest) ∧ e.key.same key = true ∧
      ∀ f ∈ rest, f.key.same key = false := by
  have hentry : d.holding? key = some e := by simpa [hfound] using (h.find?_map key).symm
  obtain ⟨he, hsame⟩ := Dictionary.holding?_sound hentry
  obtain ⟨rest, hperm, hrest⟩ := h.proper.exists_rest he hsame
  exact ⟨hentry, rest, hperm, hsame, hrest⟩

/-- A table that replaces a value gives the old one, and then stands for the dictionary with the
new one. -/
theorem Represents.replace {t : Table} {d : Dictionary} (h : t.Represents d)
    (key value : Value) :
    (t.replace key value).1 = (d.holding? key).map (·.value) ∧
      (t.replace key value).2.Represents (d.assign key value) := by
  have hvalid := h.valid.replace key value
  cases hfound : t.find? key with
  | none =>
    have hnone : d.holding? key = none := by simpa [hfound] using (h.find?_map key).symm
    have habsent := Dictionary.holding?_eq_none_iff.1 hnone
    rw [replace_of_not_found value hfound, hnone, Dictionary.assign_of_absent habsent]
    exact ⟨rfl, h⟩
  | some found =>
    obtain ⟨i, e⟩ := found
    obtain ⟨hentry, rest, hperm, hsame, hrest⟩ := h.exists_rest hfound
    have hslots := slotEntries_revalue (find?_sound hfound).1 { e with value }
    rw [replace_of_found value hfound] at hvalid ⊢
    refine ⟨by simp [hentry], hvalid, ?_⟩
    refine List.Perm.trans ?_ (Dictionary.assign_perm hperm hsame hrest value).symm
    refine List.Perm.cons_inv (a := e) (hslots.trans ?_)
    exact ((h.perm.trans hperm).cons _).trans (List.Perm.swap _ _ _)

/-- A table that removes a key gives its value, and then stands for the dictionary without the
key. -/
theorem Represents.remove {t : Table} {d : Dictionary} (h : t.Represents d) (key : Value) :
    (t.remove key).1 = (d.holding? key).map (·.value) ∧
      (t.remove key).2.Represents (d.discard key) := by
  have hvalid := h.valid.remove key
  cases hfound : t.find? key with
  | none =>
    have hnone : d.holding? key = none := by simpa [hfound] using (h.find?_map key).symm
    have habsent := Dictionary.holding?_eq_none_iff.1 hnone
    rw [remove_of_not_found hfound, hnone, Dictionary.discard_of_absent habsent]
    exact ⟨rfl, h⟩
  | some found =>
    obtain ⟨i, e⟩ := found
    obtain ⟨hentry, rest, hperm, hsame, hrest⟩ := h.exists_rest hfound
    have hslots := slotEntries_bury (find?_sound hfound).1
    rw [remove_of_found hfound] at hvalid ⊢
    refine ⟨by simp [hentry], hvalid, ?_⟩
    refine List.Perm.trans ?_ (Dictionary.discard_perm hperm hsame hrest).symm
    exact List.Perm.cons_inv (hslots.trans (h.perm.trans hperm))

/-- A table gives the answer that the dictionary it stands for gives, and both stay
together. -/
theorem Represents.answer {t : Table} {d : Dictionary} (h : t.Represents d) (r : Request) :
    (t.answer r).1 = (d.answer r).1 ∧ (t.answer r).2.Represents (d.answer r).2 := by
  cases r with
  | insert key value =>
    have hcontains := h.contains_eq key
    obtain ⟨hold, hassign⟩ := h.replace key value
    cases hnan : key.isNaN with
    | true => simpa [Table.answer, insert_of_nan value hnan, Dictionary.answer, hnan] using h
    | false =>
      cases hentry : d.holding? key with
      | some e =>
        rw [hentry] at hcontains hold
        have hinsert := insert_of_present value hnan hcontains
        simp only [Table.answer, hinsert, Dictionary.answer, hnan, hentry, hold, Option.map_some]
        exact ⟨rfl, hassign⟩
      | none =>
        rw [hentry] at hcontains
        have habsent := h.valid.contains_eq_false_iff.1 hcontains
        have hinsert := insert_of_absent value hnan hcontains
        obtain ⟨hvalid, hperm⟩ := h.valid.add (e := ⟨key, value⟩) hnan habsent
        simp only [Table.answer, hinsert, Dictionary.answer, hnan, hentry]
        exact ⟨rfl, hvalid, hperm.trans (h.perm.cons _)⟩
  | get key => exact ⟨congrArg Answer.value (h.get?_eq key), h⟩
  | replace key value =>
    obtain ⟨hold, hassign⟩ := h.replace key value
    exact ⟨congrArg Answer.value hold, hassign⟩
  | contains key => exact ⟨congrArg Answer.known (h.contains_eq key), h⟩
  | remove key =>
    obtain ⟨hold, hdiscard⟩ := h.remove key
    exact ⟨congrArg Answer.value hold, hdiscard⟩

/-- A fresh table stands for the empty dictionary. -/
theorem represents_nil {requested : UInt64} {t : Table} (h : withCapacity requested = .ok t) :
    t.Represents [] := by
  refine ⟨Valid.withCapacity h, ?_⟩
  simp only [withCapacity] at h
  split at h
  · obtain rfl := Except.ok.inj h
    exact List.Perm.of_eq (slotEntries_emptySlots _)
  · cases h

/-- Run from a fresh table, any requests get the answers that the empty dictionary gives.
At the end the keys of the dictionary are different and none is not-a-number, the size of
the table is the number of its entries, and the table lists exactly these. -/
theorem answers_as_dictionary {requested : UInt64} {t : Table}
    (h : withCapacity requested = .ok t) (rs : List Request) :
    (answerAll Table.answer t rs).1 = (answerAll Dictionary.answer [] rs).1 ∧
      (answerAll Dictionary.answer [] rs).2.Proper ∧
      (answerAll Table.answer t rs).2.size = (answerAll Dictionary.answer [] rs).2.length ∧
      (answerAll Table.answer t rs).2.isEmpty = (answerAll Dictionary.answer [] rs).2.isEmpty ∧
      (answerAll Table.answer t rs).2.entries.Perm (answerAll Dictionary.answer [] rs).2 := by
  obtain ⟨hanswers, hfinal⟩ :=
    answerAll_simulates (R := Represents) (fun _ _ r h => h.answer r) (represents_nil h) rs
  have hsize := hfinal.valid.length_entries.symm.trans hfinal.perm.length_eq
  refine ⟨hanswers, hfinal.proper, hsize, ?_, hfinal.perm⟩
  rw [Table.isEmpty, hsize, Bool.eq_iff_iff, beq_iff_eq, List.isEmpty_iff_length_eq_zero]

/-- One zero takes the place of the other, so the second value is stored under the first zero
and the first value is given back. Not-a-number is refused, and a table that has forgotten a
text lists the other two entries. -/
theorem answers_as_dictionary_zeros :
    withCapacity 17 = .ok (fresh 32) ∧
      let rs : List Request := [.insert (.number .zero) (.text "a"),
        .insert (.number ⟨0x8000000000000000⟩) (.text "b"),
        .insert (.number ⟨0x7ff8000000000000⟩) .nil, .insert (.text "k") .nil, .insert .nil .nil,
        .remove (.text "k"), .get (.number ⟨0x8000000000000000⟩), .contains (.text "k")]
      let final := (answerAll Table.answer (fresh 32) rs).2
      (answerAll Table.answer (fresh 32) rs).1 =
          [.inserted (.ok none), .inserted (.ok (some (.text "a"))), .inserted (.error .nanKey),
            .inserted (.ok none), .inserted (.ok none), .value (some .nil),
            .value (some (.text "b")), .known false] ∧
        (answerAll Table.answer (fresh 32) rs).1 = (answerAll Dictionary.answer [] rs).1 ∧
        Proper (answerAll Dictionary.answer [] rs).2 ∧
        final.size = 2 ∧ final.isEmpty = false ∧
        final.entries.Perm [⟨.nil, .nil⟩, ⟨.number .zero, .text "b"⟩] := by
  refine ⟨rfl, ?_⟩
  intro rs final
  obtain ⟨hanswers, hproper, hsize, hempty, hperm⟩ := @answers_as_dictionary 17 (fresh 32) rfl rs
  have hgiven : (answerAll Dictionary.answer [] rs).1 =
      [.inserted (.ok none), .inserted (.ok (some (.text "a"))), .inserted (.error .nanKey),
        .inserted (.ok none), .inserted (.ok none), .value (some .nil),
        .value (some (.text "b")), .known false] := rfl
  have hleft : (answerAll Dictionary.answer [] rs).2 =
      [⟨.nil, .nil⟩, ⟨.number .zero, .text "b"⟩] := by decide +kernel
  rw [hleft] at hsize hempty hperm
  exact ⟨hanswers.trans hgiven, hanswers, hproper, hsize, hempty, hperm⟩

end Table

end GradualScript
