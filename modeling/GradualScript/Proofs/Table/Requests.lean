import GradualScript.Proofs.Table.Invariant

/-!
# Runs of requests

A program uses a table by one request after the other (`Request`), and gets an answer to
each (`Answer`). `answerAll` runs requests against anything that answers them one at a
time: against a table (`Table.answer`), and elsewhere against a simpler thing that the
table is compared with (`answerAll_simulates`).

Every request keeps a table valid (`Table.Valid.answer`), and so every table that a run
reaches is valid.
-/

set_option autoImplicit false

namespace GradualScript

/-- What a program asks of a table. -/
inductive Request where
  | insert (key value : Value)
  | get (key : Value)
  | replace (key value : Value)
  | contains (key : Value)
  | remove (key : Value)
deriving DecidableEq

/-- What a program gets: the value replaced by an insertion or the refusal of its key, the
value found, or whether the key is there. -/
inductive Answer where
  | inserted (old : Except TableError (Option Value))
  | value (found : Option Value)
  | known (present : Bool)

def answerAll {σ : Type} (step : σ → Request → Answer × σ) (s : σ) :
    List Request → List Answer × σ
  | [] => ([], s)
  | r :: rs =>
    let first := step s r
    let rest := answerAll step first.2 rs
    (first.1 :: rest.1, rest.2)

/-- What every step keeps, a run keeps. -/
theorem answerAll_keeps {σ : Type} {step : σ → Request → Answer × σ} {P : σ → Prop}
    (hstep : ∀ s r, P s → P (step s r).2) {s : σ} (h : P s) (rs : List Request) :
    P (answerAll step s rs).2 := by
  induction rs generalizing s with
  | nil => exact h
  | cons r rs ih => exact ih (hstep s r h)

/-- Two systems that answer each request alike, and stay related, answer every run
alike. -/
theorem answerAll_simulates {σ τ : Type} {step : σ → Request → Answer × σ}
    {step' : τ → Request → Answer × τ} {R : σ → τ → Prop}
    (hstep : ∀ s s' r, R s s' → (step s r).1 = (step' s' r).1 ∧ R (step s r).2 (step' s' r).2)
    {s : σ} {s' : τ} (h : R s s') (rs : List Request) :
    (answerAll step s rs).1 = (answerAll step' s' rs).1 ∧
      R (answerAll step s rs).2 (answerAll step' s' rs).2 := by
  induction rs generalizing s s' with
  | nil => exact ⟨rfl, h⟩
  | cons r rs ih =>
    obtain ⟨hanswer, hnext⟩ := hstep s s' r h
    obtain ⟨hrest, hfinal⟩ := ih hnext
    exact ⟨by simp only [answerAll, hanswer, hrest], hfinal⟩

namespace Table

/-- How a table answers a request. A refused insertion leaves it as it is. -/
def answer (t : Table) : Request → Answer × Table
  | .insert key value =>
    match t.insert key value with
    | .ok (old, t') => (.inserted (.ok old), t')
    | .error e => (.inserted (.error e), t)
  | .get key => (.value (t.get? key), t)
  | .replace key value => (.value (t.replace key value).1, (t.replace key value).2)
  | .contains key => (.known (t.contains key), t)
  | .remove key => (.value (t.remove key).1, (t.remove key).2)

/-! ## What single requests do -/

section Outcomes

variable {t : Table} {key : Value} {i : Nat} {e : Entry} (value : Value)

/-- A value under a key that is found is replaced in its slot, and given back. -/
theorem replace_of_found (h : t.find? key = some (i, e)) :
    t.replace key value = (some e.value,
      { t with slots := t.slots.setIfInBounds i (.occupied { e with value }) }) := by
  simp [replace, h]

/-- No value is replaced under a key that is not found. -/
theorem replace_of_not_found (h : t.find? key = none) : t.replace key value = (none, t) := by
  simp [replace, h]

/-- A key that is found is removed, with a tombstone in its slot, and its value is given back. -/
theorem remove_of_found (h : t.find? key = some (i, e)) :
    t.remove key = (some e.value,
      ⟨t.slots.setIfInBounds i .tombstone, t.size - 1, t.tombstones + 1⟩) := by
  simp [remove, h]

/-- A key that is not found is not removed. -/
theorem remove_of_not_found (h : t.find? key = none) : t.remove key = (none, t) := by
  simp [remove, h]

/-- Not-a-number is refused as a key, and the table is not touched. -/
theorem insert_of_nan (hnan : key.isNaN = true) : t.insert key value = .error .nanKey := by
  simp [insert, hnan]

/-- To insert under a key that is there is to replace its value. -/
theorem insert_of_present (hnan : key.isNaN = false) (h : t.contains key = true) :
    t.insert key value = .ok (t.replace key value) := by
  simp [insert, hnan, h]

/-- To insert under a new key is to make room and to place the entry. -/
theorem insert_of_absent (hnan : key.isNaN = false) (h : t.contains key = false) :
    t.insert key value = .ok (none, t.reserve.place ⟨key, value⟩) := by
  simp [insert, hnan, h]

end Outcomes

/-! ## Every request keeps a table valid -/

/-- A valid table is valid still when a value has been replaced. -/
theorem Valid.replace {t : Table} (h : t.Valid) (key value : Value) :
    (t.replace key value).2.Valid := by
  unfold Table.replace
  split
  · exact h
  · rename_i i e hfound
    exact h.revalue (find?_sound hfound).1 value

/-- A valid table is valid still when a key has been removed. -/
theorem Valid.remove {t : Table} (h : t.Valid) (key : Value) : (t.remove key).2.Valid := by
  unfold Table.remove
  split
  · exact h
  · rename_i i e hfound
    exact h.bury (find?_sound hfound).1

/-- A valid table does not know a key exactly if no entry has it. -/
theorem Valid.contains_eq_false_iff {t : Table} (h : t.Valid) {key : Value} :
    t.contains key = false ↔ ∀ e ∈ t.entries, e.key.same key = false := by
  rw [← h.layout.find?_eq_none_iff, contains, Option.isSome_eq_false_iff, Option.isNone_iff_eq_none]

/-- A valid table is valid still when an entry has been inserted. -/
theorem Valid.insert {t t' : Table} (h : t.Valid) {key value : Value} {old : Option Value}
    (hinsert : t.insert key value = .ok (old, t')) : t'.Valid := by
  cases hnan : key.isNaN with
  | true =>
    rw [insert_of_nan value hnan] at hinsert
    cases hinsert
  | false =>
    cases hcontains : t.contains key with
    | true =>
      rw [insert_of_present value hnan hcontains] at hinsert
      have ht : (t.replace key value).2 = t' := congrArg Prod.snd (Except.ok.inj hinsert)
      exact ht ▸ h.replace key value
    | false =>
      rw [insert_of_absent value hnan hcontains] at hinsert
      have ht : t.reserve.place ⟨key, value⟩ = t' := congrArg Prod.snd (Except.ok.inj hinsert)
      exact ht ▸ (h.add hnan (h.contains_eq_false_iff.1 hcontains)).1

/-- A valid table is valid still after any request. -/
theorem Valid.answer {t : Table} (h : t.Valid) (r : Request) : (t.answer r).2.Valid := by
  cases r with
  | insert key value =>
    simp only [Table.answer]
    cases hinsert : t.insert key value with
    | ok p => exact h.insert hinsert
    | error e => exact h
  | get key => exact h
  | replace key value => exact h.replace key value
  | contains key => exact h
  | remove key => exact h.remove key

/-- A valid table is valid still after any run of requests. -/
theorem Valid.answerAll {t : Table} (h : t.Valid) (rs : List Request) :
    (answerAll Table.answer t rs).2.Valid :=
  answerAll_keeps (fun _ r h => h.answer r) h rs

/-- Every table that is reached from a fresh one by a run of requests is valid: it has a
power of two of slots, at least sixteen of them; its counters are exact and within the
load limit; no key is not-a-number or stored twice; and the walk of each stored key
reaches its slot without passing an empty one. -/
theorem valid_after_requests {requested : UInt64} {t : Table}
    (h : withCapacity requested = .ok t) (rs : List Request) :
    (answerAll Table.answer t rs).2.Valid :=
  (Valid.withCapacity h).answerAll rs

/-- Removing and storing the zeros again, and trying not-a-number in between, reaches a
valid table. The zero that is stored last is in the slot that the other zero has left, and
the tombstone there is not counted any more. The tombstone that the text has left is. -/
theorem valid_after_zeros :
    withCapacity 0 = .ok Table.empty ∧
      let minus : Value := .number ⟨0x8000000000000000⟩
      let rs : List Request := [.insert (.number .zero) .nil, .remove minus, .insert .nil .nil,
        .insert (.number ⟨0x7ff8000000000000⟩) .nil, .insert minus .nil, .insert (.text "k") .nil,
        .remove (.text "k")]
      let final := (answerAll Table.answer Table.empty rs).2
      final.Valid ∧ final.capacity = 16 ∧ final.size = 2 ∧ final.tombstones = 1 ∧
        final.slots[minus.slotIndex 16]? = some (.occupied ⟨minus, .nil⟩) ∧
        final.slots.countP (fun s => !s.isVacant) = 2 ∧ final.slots.count .tombstone = 1 := by
  refine ⟨rfl, ?_⟩
  intro minus rs final
  have hvalid : final.Valid := @valid_after_requests 0 Table.empty rfl rs
  have hsize : final.size = 2 := by decide +kernel
  have htombstones : final.tombstones = 1 := by decide +kernel
  exact ⟨hvalid, by decide +kernel, hsize, htombstones, by decide +kernel,
    hvalid.size_eq.symm.trans hsize, hvalid.tombstones_eq.symm.trans htombstones⟩

end Table

end GradualScript
