import GradualScript.Proofs.Table.Dictionary

/-!
# Filling tables

A table is filled by storing entries one after the other (`Table.fill`). This succeeds if
none of the keys is not-a-number, and the table then represents the dictionary that is
filled in the same way (`Table.Represents.fill`).

Keys and values of the filled dictionary are among those that were stored or there before
(`Dictionary.fill_keeps`), though an old key may be paired with a new value. If the keys are
different from one another and new, all entries are there as they were stored
(`Dictionary.fill_perm`).
-/

set_option autoImplicit false

namespace GradualScript

namespace Dictionary

/-- The dictionary with an entry stored. A key that is there already keeps its place. -/
def store (d : Dictionary) (e : Entry) : Dictionary := (d.answer (.insert e.key e.value)).2

def fill (d : Dictionary) (es : List Entry) : Dictionary := es.foldl store d

/-- An entry whose key is not-a-number is not stored. -/
theorem store_of_nan {d : Dictionary} {e : Entry} (hnan : e.key.isNaN = true) :
    d.store e = d := by
  simp [store, answer, hnan]

/-- An entry whose key is there gives the key a new value. -/
theorem store_of_present {d : Dictionary} {e f : Entry} (hnan : e.key.isNaN = false)
    (h : d.holding? e.key = some f) : d.store e = d.assign e.key e.value := by
  simp [store, answer, hnan, h]

/-- An entry with a new key is added. -/
theorem store_of_absent {d : Dictionary} {e : Entry} (hnan : e.key.isNaN = false)
    (h : d.holding? e.key = none) : d.store e = e :: d := by
  simp [store, answer, hnan, h]

/-- What holds of all keys and all values goes on to hold when an entry is stored of whose
key and value it holds. -/
theorem store_keeps {P Q : Value → Prop} {d : Dictionary} {e : Entry}
    (hd : ∀ f ∈ d, P f.key ∧ Q f.value) (he : P e.key ∧ Q e.value) :
    ∀ f ∈ d.store e, P f.key ∧ Q f.value := by
  intro f hf
  cases hnan : e.key.isNaN with
  | true =>
    rw [store_of_nan hnan] at hf
    exact hd f hf
  | false =>
    cases hfound : d.holding? e.key with
    | none =>
      rw [store_of_absent hnan hfound] at hf
      rcases List.mem_cons.1 hf with rfl | hf
      · exact he
      · exact hd f hf
    | some g =>
      -- The new value is under the old key.
      rw [store_of_present hnan hfound] at hf
      obtain ⟨g, hg, rfl⟩ := List.mem_map.1 hf
      split
      · exact ⟨(hd g hg).1, he.2⟩
      · exact hd g hg

/-- What holds of all keys and of all values holds of them still when entries have been stored of
which it holds as well. -/
theorem fill_keeps {P Q : Value → Prop} {d : Dictionary} {es : List Entry}
    (hd : ∀ f ∈ d, P f.key ∧ Q f.value) (hes : ∀ e ∈ es, P e.key ∧ Q e.value) :
    ∀ f ∈ d.fill es, P f.key ∧ Q f.value := by
  induction es generalizing d with
  | nil => exact hd
  | cons e es ih =>
    rw [List.forall_mem_cons] at hes
    exact ih (store_keeps hd hes.1) hes.2

/-- New entries with different keys are all there in the end. -/
theorem fill_perm {d : Dictionary} {es : List Entry} (hnan : ∀ e ∈ es, e.key.isNaN = false)
    (hdistinct : es.Pairwise fun e f => e.key.same f.key = false)
    (hnew : ∀ e ∈ es, ∀ f ∈ d, f.key.same e.key = false) : (d.fill es).Perm (es ++ d) := by
  induction es generalizing d with
  | nil => exact List.Perm.refl _
  | cons e es ih =>
    rw [List.forall_mem_cons] at hnan hnew
    rw [List.pairwise_cons] at hdistinct
    have hrest : ∀ f ∈ es, ∀ g ∈ e :: d, g.key.same f.key = false := by
      intro f hf g hg
      rcases List.mem_cons.1 hg with rfl | hg
      · exact hdistinct.1 f hf
      · exact hnew.2 f hf g hg
    have hstored := store_of_absent hnan.1 (holding?_eq_none_iff.2 hnew.1)
    show (fill (d.store e) es).Perm _
    rw [hstored]
    exact (ih hnan.2 hdistinct.2 hrest).trans List.perm_middle

end Dictionary

namespace Table

/-- Stores entries in order. -/
def fill (t : Table) : List Entry → Except TableError Table
  | [] => .ok t
  | e :: es =>
    match t.insert e.key e.value with
    | .ok (_, t') => t'.fill es
    | .error error => .error error

/-- A table takes an entry whose key is not not-a-number, and then stands for the dictionary with
it. -/
theorem Represents.store {t : Table} {d : Dictionary} (h : t.Represents d) {e : Entry}
    (hnan : e.key.isNaN = false) :
    ∃ old t', t.insert e.key e.value = .ok (old, t') ∧ t'.Represents (d.store e) := by
  obtain ⟨hanswer, hnext⟩ := h.answer (.insert e.key e.value)
  simp only [Table.answer] at hanswer hnext
  cases hinsert : t.insert e.key e.value with
  | ok inserted =>
    rw [hinsert] at hnext
    exact ⟨inserted.1, inserted.2, rfl, hnext⟩
  | error error =>
    -- Only a key that is not-a-number is refused.
    rw [hinsert] at hanswer
    cases hfound : d.holding? e.key <;> simp [Dictionary.answer, hnan, hfound] at hanswer

/-- A table can be filled with entries of which no key is not-a-number. -/
theorem Represents.fill {t : Table} {d : Dictionary} (h : t.Represents d) {es : List Entry}
    (hnan : ∀ e ∈ es, e.key.isNaN = false) :
    ∃ t', t.fill es = .ok t' ∧ t'.Represents (d.fill es) := by
  induction es generalizing t d with
  | nil => exact ⟨t, rfl, h⟩
  | cons e es ih =>
    rw [List.forall_mem_cons] at hnan
    obtain ⟨old, next, hinsert, hnext⟩ := h.store hnan.1
    obtain ⟨t', hfill, ht'⟩ := ih hnext hnan.2
    refine ⟨t', ?_, ht'⟩
    rw [Table.fill, hinsert]
    exact hfill

/-- A value that a table gives is the value of one of its entries. -/
theorem Represents.exists_of_get? {t : Table} {d : Dictionary} (h : t.Represents d)
    {key value : Value} (hget : t.get? key = some value) : ∃ e ∈ d, e.value = value := by
  rw [h.get?_eq, Option.map_eq_some_iff] at hget
  obtain ⟨e, hfound, hvalue⟩ := hget
  exact ⟨e, (Dictionary.holding?_sound hfound).1, hvalue⟩

/-- A table fits a table type if the entries of its dictionary do. -/
theorem Represents.conformsTo_iff {t : Table} {d : Dictionary} (h : t.Represents d)
    (key value : Ty) :
    t.conformsTo (.table key value) = true ↔
      ∀ e ∈ d, key.compatible (.primitive e.key.kind) = true ∧
        value.compatible (.primitive e.value.kind) = true := by
  simp only [conformsTo, List.all_eq_true, Bool.and_eq_true, h.perm.mem_iff]

end Table

end GradualScript
