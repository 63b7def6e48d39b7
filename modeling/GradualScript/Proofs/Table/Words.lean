import GradualScript.Proofs.Table.Growth

/-!
# Tables on machine words

A machine counts entries, tombstones and slots in 64-bit words, and its arithmetic wraps around
at `2 ^ 64`. `WordTable` is a table with such counters: it makes room, places and removes entries
as a table does, but all that it computes with counters and capacities it computes on words.
`WordTable.exact` reads the words as numbers.

Nothing wraps around as long as the table has at most `2 ^ 58` slots, more than which cannot be
allocated (`Table.Valid.fitsWords`): the load limit bounds the slots in use by the capacity, and
the counters are exact, so an entry that is taken out has been counted, and so has a tombstone
that is reused. Word tables then do what tables do, request by request
(`WordTable.answer_exact`) and in any run (`WordTable.answerAll_exact`).

The first capacity is rounded to a power of two, which fits in a word up to a request of
`2 ^ 63` (`Capacity.round_lt_limit_iff`) and is the least that will do
(`Capacity.isLeast_round`).
-/

set_option autoImplicit false

namespace GradualScript

namespace Capacity

/-- The capacity of a fresh table is the least power of two that is not less than what was
requested, nor than the initial capacity. -/
theorem isLeast_round (requested : Nat) :
    IsLeast {n | max requested initial ≤ n ∧ ∃ k, n = 2 ^ k} (round requested) := by
  have hpos : 16 ≤ max requested initial := Nat.le_max_right requested initial
  constructor
  · refine ⟨?_, _, rfl⟩
    have hlt := Nat.lt_log2_self (n := max requested initial - 1)
    rw [round, Nat.pow_eq]
    omega
  · rintro n ⟨hle, k, rfl⟩
    have hlog : (max requested initial - 1).log2 < k :=
      (Nat.log2_lt (by omega)).2 (by omega)
    exact Nat.pow_le_pow_right Nat.two_pos hlog

/-- The rounded capacity is a 64-bit word up to the largest power of two that is one. -/
theorem round_lt_limit_iff (requested : Nat) : round requested < limit ↔ requested ≤ 2 ^ 63 := by
  have hpos : 16 ≤ max requested initial := Nat.le_max_right requested initial
  have hinitial : initial ≤ 2 ^ 63 := by decide
  rw [round, limit, Nat.pow_eq, Nat.pow_eq, Nat.pow_lt_pow_iff_right Nat.one_lt_two,
    Nat.succ_lt_succ_iff, Nat.log2_lt (by omega)]
  omega

end Capacity

namespace WordTable

/-! ## Words -/

/-- A sum of words that fits in a word is the sum of the numbers. -/
theorem toNat_add_of_lt {a b : UInt64} (h : a.toNat + b.toNat < 2 ^ 64) :
    (a + b).toNat = a.toNat + b.toNat := by
  rw [UInt64.toNat_add, Nat.mod_eq_of_lt h]

/-- A product of words that fits in a word is the product of the numbers. -/
theorem toNat_mul_of_lt {a b : UInt64} (h : a.toNat * b.toNat < 2 ^ 64) :
    (a * b).toNat = a.toNat * b.toNat := by
  rw [UInt64.toNat_mul, Nat.mod_eq_of_lt h]

/-- A word that is not zero is one more than the word before it. -/
theorem toNat_pred_of_pos {a : UInt64} (h : 0 < a.toNat) : (a - 1).toNat = a.toNat - 1 :=
  UInt64.toNat_sub_of_le a 1 (UInt64.le_iff_toNat_le.2 h)

end WordTable

/-! ## Word tables -/

/-- A table whose counters are 64-bit words. -/
structure WordTable where
  slots : Array Slot
  size : UInt64
  tombstones : UInt64

namespace WordTable

/-- The table with the words read as numbers. -/
def exact (w : WordTable) : Table := ⟨w.slots, w.size.toNat, w.tombstones.toNat⟩

def capacity (w : WordTable) : UInt64 := .ofNat w.slots.size

def overloaded (used capacity : UInt64) : Bool := decide (capacity * 3 < used * 4)

def rehash (w : WordTable) (capacity : UInt64) : WordTable :=
  ⟨(w.exact.rehash capacity.toNat).slots, w.size, 0⟩

def reserve (w : WordTable) : WordTable :=
  if overloaded (w.size + w.tombstones + 1) w.capacity then
    if overloaded (w.size + 1) w.capacity then w.rehash (w.capacity * 2)
    else w.rehash w.capacity
  else w

/-- Whether the slot where the entry of an absent key goes is a tombstone. -/
def reuses (slots : Array Slot) (key : Value) : Bool :=
  (Table.vacantSlot? slots key).bind (slots[·]?) == some .tombstone

def place (w : WordTable) (e : Entry) : WordTable :=
  ⟨Table.settle w.slots e, w.size + 1,
    if reuses w.slots e.key then w.tombstones - 1 else w.tombstones⟩

def replace (w : WordTable) (key value : Value) : WordTable :=
  { w with slots := (w.exact.replace key value).2.slots }

def remove (w : WordTable) (key : Value) : WordTable :=
  match w.exact.find? key with
  | none => w
  | some (i, _) => ⟨w.slots.setIfInBounds i .tombstone, w.size - 1, w.tombstones + 1⟩

/-- How a word table answers a request. Searches do not depend on the counters. -/
def answer (w : WordTable) : Request → Answer × WordTable
  | .insert key value =>
    if key.isNaN then (.inserted (.error .nanKey), w)
    else if w.exact.contains key then
      (.inserted (.ok (w.exact.get? key)), w.replace key value)
    else (.inserted (.ok none), w.reserve.place ⟨key, value⟩)
  | .get key => (.value (w.exact.get? key), w)
  | .replace key value => (.value (w.exact.get? key), w.replace key value)
  | .contains key => (.known (w.exact.contains key), w)
  | .remove key => (.value (w.exact.get? key), w.remove key)

end WordTable

namespace Table

/-- The table with its counters in words. -/
def onWords (t : Table) : WordTable := ⟨t.slots, .ofNat t.size, .ofNat t.tombstones⟩

/-- What is computed for the next request fits in words and does not go below zero. -/
structure FitsWords (t : Table) : Prop where
  used_lt : t.size + t.tombstones + 1 < 2 ^ 64
  used_mul_lt : (t.size + t.tombstones + 1) * 4 < 2 ^ 64
  size_mul_lt : (t.size + 1) * 4 < 2 ^ 64
  capacity_mul_lt : t.capacity * 3 < 2 ^ 64
  doubled_lt : t.capacity * 2 < 2 ^ 64
  size_pos : ∀ key, t.contains key = true → 0 < t.size
  tombstones_pos : ∀ key, WordTable.reuses t.reserve.slots key = true → 0 < t.reserve.tombstones

/-- A table of which all slots can be allocated fits in words. -/
theorem Valid.fitsWords {t : Table} (h : t.Valid) (hcapacity : t.capacity ≤ 2 ^ 58) :
    t.FitsWords := by
  have hload := h.load
  have hused := h.used_lt
  refine ⟨by omega, by omega, by omega, by omega, by omega, fun key hcontains => ?_,
    fun key hreused => ?_⟩
  · rw [contains, Option.isSome_iff_exists] at hcontains
    obtain ⟨⟨i, e⟩, hfound⟩ := hcontains
    rw [← h.length_entries]
    exact List.length_pos_of_mem (mem_slotEntries.2 ⟨i, (find?_sound hfound).1⟩)
  · obtain ⟨i, -, hi⟩ := Option.bind_eq_some_iff.1 (beq_iff_eq.1 hreused)
    rw [h.reserve.1.tombstones_eq]
    exact Array.count_pos_iff.2 (Array.mem_of_getElem? hi)

/-- No run makes the capacity less. -/
theorem capacity_le_answerAll {t : Table} (h : t.Valid) (rs : List Request) :
    t.capacity ≤ (answerAll Table.answer t rs).2.capacity := by
  let grown (t' : Table) : Prop := t'.Valid ∧ t.capacity ≤ t'.capacity
  have hstep (t' : Table) (r : Request) (ht' : grown t') : grown (t'.answer r).2 := by
    obtain ⟨hvalid, hle⟩ := ht'
    refine ⟨hvalid.answer r, ?_⟩
    rw [(hvalid.capacity_answer r).2]
    split <;> omega
  exact (answerAll_keeps (P := grown) hstep ⟨h, Nat.le_refl _⟩ rs).2

/-- A value that is replaced or removed is the one that the table would have given. -/
theorem replace_fst (t : Table) (key value : Value) : (t.replace key value).1 = t.get? key := by
  rw [replace, get?]
  cases t.find? key <;> rfl

/-- A value that is removed is the one that the table would have given. -/
theorem remove_fst (t : Table) (key : Value) : (t.remove key).1 = t.get? key := by
  rw [remove, get?]
  cases t.find? key <;> rfl

end Table

namespace WordTable

variable {w : WordTable}

/-- Whether a table is overloaded is the same on words, if both products fit in words. -/
theorem overloaded_eq {used capacity : UInt64} (hused : used.toNat * 4 < 2 ^ 64)
    (hcapacity : capacity.toNat * 3 < 2 ^ 64) :
    overloaded used capacity = Capacity.overloaded used.toNat capacity.toNat := by
  rw [overloaded, Capacity.overloaded, decide_eq_decide, UInt64.lt_iff_toNat_lt,
    toNat_mul_of_lt hcapacity, toNat_mul_of_lt hused]
  rfl

/-- The capacity as a word is the number of slots, if this fits in a word. -/
theorem toNat_capacity (h : w.exact.capacity < 2 ^ 64) : w.capacity.toNat = w.exact.capacity := by
  rw [capacity, UInt64.toNat_ofNat']
  exact Nat.mod_eq_of_lt h

/-- Moving the entries on words is moving them. -/
theorem exact_rehash (w : WordTable) (capacity : UInt64) :
    (w.rehash capacity).exact = w.exact.rehash capacity.toNat :=
  rfl

/-- Making room on words is making room. -/
theorem exact_reserve (h : w.exact.FitsWords) : w.reserve.exact = w.exact.reserve := by
  have hused := h.used_lt
  have hdoubled := h.doubled_lt
  have hcapacity : w.capacity.toNat = w.exact.capacity := toNat_capacity (by omega)
  have hsum : (w.size + w.tombstones).toNat = w.exact.size + w.exact.tombstones :=
    toNat_add_of_lt (Nat.lt_of_succ_lt hused)
  have hsumSucc : (w.size + w.tombstones + 1).toNat = w.exact.size + w.exact.tombstones + 1 := by
    rw [toNat_add_of_lt (hsum ▸ hused), hsum]
    rfl
  have hsizeSucc : (w.size + 1).toNat = w.exact.size + 1 :=
    toNat_add_of_lt (show w.exact.size + 1 < 2 ^ 64 by omega)
  have hdouble : (w.capacity * 2).toNat = w.exact.capacity * 2 := by
    rw [toNat_mul_of_lt (hcapacity ▸ hdoubled), hcapacity]
    rfl
  have hthrice : w.capacity.toNat * 3 < 2 ^ 64 := hcapacity ▸ h.capacity_mul_lt
  rw [reserve, Table.reserve, overloaded_eq (hsumSucc ▸ h.used_mul_lt) hthrice,
    overloaded_eq (hsizeSucc ▸ h.size_mul_lt) hthrice, hsumSucc, hsizeSucc, hcapacity]
  split
  · split
    · rw [exact_rehash, hdouble]
    · rw [exact_rehash, hcapacity]
  · rfl

/-- Placing an entry on words is placing it, if one more entry can be counted and a tombstone
that is reused has been. -/
theorem exact_place {e : Entry} (hsize : w.exact.size + 1 < 2 ^ 64)
    (htombstones : reuses w.slots e.key = true → 0 < w.exact.tombstones) :
    (w.place e).exact = w.exact.place e := by
  have hsizeSucc : (w.size + 1).toNat = w.exact.size + 1 := toNat_add_of_lt hsize
  have hcount : (if reuses w.slots e.key then w.tombstones - 1 else w.tombstones).toNat =
      if reuses w.slots e.key then w.exact.tombstones - 1 else w.exact.tombstones := by
    split
    · rename_i hreused
      exact toNat_pred_of_pos (htombstones hreused)
    · rfl
  rw [place, exact, hsizeSucc, hcount]
  rfl

/-- Making room on words and placing an entry is making room and placing it. -/
theorem exact_add (h : w.exact.FitsWords) (e : Entry) :
    (w.reserve.place e).exact = w.exact.reserve.place e := by
  have hreserve := exact_reserve h
  have hused := h.used_lt
  have hsize : w.reserve.exact.size + 1 < 2 ^ 64 := by
    rw [hreserve, Table.size_reserve]
    omega
  have htombstones : reuses w.reserve.slots e.key = true → 0 < w.reserve.exact.tombstones := by
    rw [hreserve]
    exact hreserve ▸ h.tombstones_pos e.key
  rw [exact_place hsize htombstones, hreserve]

/-- Replacing a value on words is replacing it. -/
theorem exact_replace (w : WordTable) (key value : Value) :
    (w.replace key value).exact = (w.exact.replace key value).2 := by
  rw [replace, Table.replace]
  cases w.exact.find? key <;> rfl

/-- Removing an entry on words is removing it. -/
theorem exact_remove (h : w.exact.FitsWords) (key : Value) :
    (w.remove key).exact = (w.exact.remove key).2 := by
  have hused := h.used_lt
  rw [remove]
  cases hfound : w.exact.find? key with
  | none => rw [Table.remove_of_not_found hfound]
  | some found =>
    obtain ⟨i, e⟩ := found
    have hsize : (w.size - 1).toNat = w.exact.size - 1 :=
      toNat_pred_of_pos (h.size_pos key (by rw [Table.contains, hfound]; rfl))
    have htombstones : (w.tombstones + 1).toNat = w.exact.tombstones + 1 :=
      toNat_add_of_lt (show w.exact.tombstones + 1 < 2 ^ 64 by omega)
    rw [Table.remove_of_found hfound, exact, hsize, htombstones]
    rfl

/-! ## Requests -/

/-- A word table whose arithmetic does not wrap around gives the answers of a table, and
becomes the same as it. -/
theorem answer_exact (h : w.exact.FitsWords) (r : Request) :
    (w.answer r).1 = (w.exact.answer r).1 ∧ (w.answer r).2.exact = (w.exact.answer r).2 := by
  cases r with
  | insert key value =>
    rw [answer, Table.answer]
    cases hnan : key.isNaN with
    | true => rw [Table.insert_of_nan value hnan]; exact ⟨rfl, rfl⟩
    | false =>
      cases hcontains : w.exact.contains key with
      | true =>
        rw [Table.insert_of_present value hnan hcontains]
        exact ⟨congrArg (Answer.inserted ∘ Except.ok) (w.exact.replace_fst key value).symm,
          w.exact_replace key value⟩
      | false =>
        rw [Table.insert_of_absent value hnan hcontains]
        exact ⟨rfl, exact_add h ⟨key, value⟩⟩
  | get key => exact ⟨rfl, rfl⟩
  | replace key value =>
    exact ⟨congrArg Answer.value (w.exact.replace_fst key value).symm, w.exact_replace key value⟩
  | contains key => exact ⟨rfl, rfl⟩
  | remove key =>
    exact ⟨congrArg Answer.value (w.exact.remove_fst key).symm, exact_remove h key⟩

/-- A word table whose arithmetic never wraps around is not told apart from a table by any run
of requests. As capacities only grow, it is enough that the last one can be allocated. -/
theorem answerAll_exact (h : w.exact.Valid) (rs : List Request)
    (hcapacity : (answerAll Table.answer w.exact rs).2.capacity ≤ 2 ^ 58) :
    (answerAll answer w rs).1 = (answerAll Table.answer w.exact rs).1 ∧
      (answerAll answer w rs).2.exact = (answerAll Table.answer w.exact rs).2 := by
  induction rs generalizing w with
  | nil => exact ⟨rfl, rfl⟩
  | cons r rs ih =>
    -- The bound on the last capacity holds of the one before this request, too.
    have hfits := h.fitsWords ((Table.capacity_le_answerAll h (r :: rs)).trans hcapacity)
    obtain ⟨hanswer, hnext⟩ := answer_exact hfits r
    obtain ⟨hanswers, hfinal⟩ := @ih (w.answer r).2 (hnext ▸ h.answer r) (hnext ▸ hcapacity)
    rw [hnext] at hanswers hfinal
    exact ⟨congrArg₂ List.cons hanswer hanswers, hfinal⟩

end WordTable

namespace Table

/-- A table whose counters fit in words is what its word table reads as. -/
theorem exact_onWords {t : Table} (h : t.FitsWords) : t.onWords.exact = t := by
  have hused := h.used_lt
  have hsize : (UInt64.ofNat t.size).toNat = t.size := by
    rw [UInt64.toNat_ofNat', Nat.mod_eq_of_lt (by omega)]
  have htombstones : (UInt64.ofNat t.tombstones).toNat = t.tombstones := by
    rw [UInt64.toNat_ofNat', Nat.mod_eq_of_lt (by omega)]
  rw [onWords, WordTable.exact, hsize, htombstones]

/-- A request for up to `2 ^ 63` slots is granted. -/
theorem withCapacity_ok {requested : UInt64} (h : requested.toNat ≤ 2 ^ 63) :
    withCapacity requested = .ok (fresh (Capacity.round requested.toNat)) :=
  if_pos ((Capacity.round_lt_limit_iff _).2 h)

/-- A request for more than `2 ^ 63` slots is refused, with the number that was requested. -/
theorem withCapacity_error {requested : UInt64} (h : 2 ^ 63 < requested.toNat) :
    withCapacity requested = .error (.cannotAllocate requested) :=
  if_neg fun hround => absurd ((Capacity.round_lt_limit_iff _).1 hround) (Nat.not_le.2 h)

/-- A fresh table has as many slots as it was made with. -/
@[simp] theorem capacity_fresh (capacity : Nat) : (fresh capacity).capacity = capacity :=
  size_emptySlots capacity

/-- A request for more than `2 ^ 63` slots fails, and any other gives the least power of two of
slots that is not less than requested, nor than sixteen. From such a table on, as long as the
table that a run of requests has reached has at most `2 ^ 58` slots, what is computed for the
next request fits in 64-bit words and does not go below zero. Counters on words give the same
answers and the same table as exact ones, during the run and at the next request. -/
theorem words_are_exact (requested : UInt64) :
    (withCapacity requested = .error (.cannotAllocate requested) ↔ 2 ^ 63 < requested.toNat) ∧
      (requested.toNat ≤ 2 ^ 63 → ∃ t₀, withCapacity requested = .ok t₀ ∧
        IsLeast {n | max requested.toNat 16 ≤ n ∧ ∃ k, n = 2 ^ k} t₀.capacity) ∧
      ∀ (t₀ : Table) (rs : List Request), withCapacity requested = .ok t₀ →
        let t := (answerAll Table.answer t₀ rs).2
        let w := (answerAll WordTable.answer t₀.onWords rs).2
        t.capacity ≤ 2 ^ 58 →
          t.FitsWords ∧
            (answerAll WordTable.answer t₀.onWords rs).1 = (answerAll Table.answer t₀ rs).1 ∧
            w.exact = t ∧
            ∀ r, (w.answer r).1 = (t.answer r).1 ∧ (w.answer r).2.exact = (t.answer r).2 := by
  refine ⟨⟨fun hfails => ?_, withCapacity_error⟩, fun hle => ⟨_, withCapacity_ok hle, ?_⟩, ?_⟩
  · by_contra hle
    rw [withCapacity_ok (Nat.not_lt.1 hle)] at hfails
    cases hfails
  · rw [capacity_fresh]
    exact Capacity.isLeast_round requested.toNat
  · intro t₀ rs h t w hcapacity
    have hfresh := Valid.withCapacity h
    have hfits : t.FitsWords := (hfresh.answerAll rs).fitsWords hcapacity
    have hstart : t₀.onWords.exact = t₀ :=
      exact_onWords (hfresh.fitsWords ((capacity_le_answerAll hfresh rs).trans hcapacity))
    obtain ⟨hanswers, hfinal⟩ :=
      @WordTable.answerAll_exact t₀.onWords (hstart.symm ▸ hfresh) rs (hstart.symm ▸ hcapacity)
    rw [hstart] at hanswers hfinal
    refine ⟨hfits, hanswers, hfinal, fun r => ?_⟩
    have hw : w.exact = t := hfinal
    exact hw ▸ WordTable.answer_exact (hw.symm ▸ hfits) r

/-- A request for `2 ^ 63` slots is the largest that can be rounded. Thirteen entries in
thirty-two slots, of which one is removed and stored again, are counted alike on words and
exactly; the tombstone is reused, and its counter goes down to zero and no further. -/
theorem words_are_exact_reused :
    let key (i : Nat) : Value := .number ⟨i.toUInt64⟩
    let put (i : Nat) : Request := .insert (key i) .nil
    let rs : List Request := (List.range 13).map put ++ [.remove (key 3)]
    let t := (answerAll Table.answer Table.empty rs).2
    let w := (answerAll WordTable.answer Table.empty.onWords rs).2
    withCapacity 9223372036854775809 = .error (.cannotAllocate 9223372036854775809) ∧
      (∃ t₀, withCapacity 9223372036854775808 = .ok t₀ ∧
        IsLeast {n | max (2 ^ 63) 16 ≤ n ∧ ∃ k, n = 2 ^ k} t₀.capacity) ∧
      withCapacity 0 = .ok Table.empty ∧ t.capacity = 32 ∧ t.size = 12 ∧ t.tombstones = 1 ∧
      (t.size + t.tombstones + 1) * 4 < 2 ^ 64 ∧ w.exact = t ∧
      (w.answer (put 3)).2.exact = (t.answer (put 3)).2 ∧
      (w.answer (put 3)).2.exact.tombstones = 0 := by
  intro key put rs t w
  have hempty : withCapacity 0 = .ok Table.empty := rfl
  have hcapacity : t.capacity = 32 := by decide +kernel
  obtain ⟨hfails, -, -⟩ := words_are_exact 9223372036854775809
  obtain ⟨-, hrounds, -⟩ := words_are_exact 9223372036854775808
  obtain ⟨-, -, hruns⟩ := words_are_exact 0
  obtain ⟨hfits, -, hexact, hnext⟩ :=
    hruns Table.empty rs hempty (show t.capacity ≤ 2 ^ 58 by rw [hcapacity]; decide)
  obtain ⟨-, hstored⟩ := hnext (put 3)
  have hreused : (w.answer (put 3)).2.exact.tombstones = 0 := by
    rw [hstored]
    decide +kernel
  exact ⟨hfails.2 (by decide), hrounds (by decide), hempty, hcapacity, by decide +kernel,
    by decide +kernel, hfits.used_mul_lt, hexact, hstored, hreused⟩

end Table

end GradualScript
