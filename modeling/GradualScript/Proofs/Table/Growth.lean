import GradualScript.Proofs.Table.Requests
import Mathlib.Algebra.Group.Nat.Defs
import Mathlib.Order.Bounds.Basic

/-!
# How tables grow

A request doubles the capacity of a table exactly if afterwards the entries alone fill more
than three quarters of the old capacity (`Table.Valid.capacity_answer`). Tombstones do not
count: they make a table move to as many slots as it has.

A run of requests may take the number of entries up and down. Only the highest number that
it comes to matters (`Table.peak`). Of the capacities that doubling can lead to, the table
has the least that holds so many entries (`Table.capacity_after_requests`), whatever else
the run did: one step of the proof is that a single doubling makes room for the one entry
that a request may add (`Capacity.isLeast_sufficing`).
-/

set_option autoImplicit false

namespace GradualScript

namespace Capacity

/-- The capacities that doubling leads to from an initial one and that a number of entries
do not overload. -/
def sufficing (initial entries : Nat) : Set Nat :=
  {n | entries * 4 ≤ n * 3 ∧ ∃ j, n = initial * 2 ^ j}

/-- A capacity that is enough for some entries is enough for fewer. -/
theorem sufficing_anti {initial entries entries' : Nat} (h : entries ≤ entries') :
    sufficing initial entries' ⊆ sufficing initial entries := by
  rintro n ⟨hroom, hdoubled⟩
  exact ⟨by omega, hdoubled⟩

/-- Doubling on demand keeps a capacity the least that suffices, as long as the entries
become more by one at a time. -/
theorem isLeast_sufficing {initial entries capacity : Nat}
    (h : IsLeast (sufficing initial entries) capacity) (hcapacity : 2 ≤ capacity) {size : Nat}
    (hsize : size ≤ entries + 1) :
    IsLeast (sufficing initial (max entries size))
      (if overloaded size capacity then capacity * 2 else capacity) := by
  obtain ⟨⟨hroom, j, hj⟩, hleast⟩ := h
  unfold overloaded
  split
  · rename_i hover
    rw [decide_eq_true_iff] at hover
    refine ⟨⟨by omega, j + 1, by rw [hj, Nat.pow_succ, Nat.mul_assoc]⟩, ?_⟩
    -- A capacity that suffices is at least the old one, which is overloaded, so it has been
    -- doubled more often.
    rintro n ⟨hn, k, rfl⟩
    have hle : capacity ≤ initial * 2 ^ k := hleast ⟨by omega, k, rfl⟩
    have hjk : j < k := by
      rw [← not_le]
      intro hkj
      have := Nat.mul_le_mul_left initial (Nat.pow_le_pow_right Nat.two_pos hkj)
      omega
    calc capacity * 2 = initial * 2 ^ (j + 1) := by rw [hj, Nat.pow_succ, Nat.mul_assoc]
      _ ≤ initial * 2 ^ k :=
        Nat.mul_le_mul_left initial (Nat.pow_le_pow_right Nat.two_pos hjk)
  · rename_i hfits
    rw [decide_eq_true_iff] at hfits
    refine ⟨⟨by omega, j, hj⟩, ?_⟩
    intro n hn
    exact hleast (sufficing_anti (Nat.le_max_left entries size) hn)

end Capacity

namespace Table

/-! ## One request -/

section Sizes

variable (t : Table)

/-- A table with a new value under a key has as many entries as before. -/
@[simp] theorem size_replace (key value : Value) : (t.replace key value).2.size = t.size := by
  unfold replace
  split <;> rfl

/-- A table with a new value under a key has as many slots as before. -/
@[simp] theorem capacity_replace (key value : Value) :
    (t.replace key value).2.capacity = t.capacity := by
  unfold replace
  split <;> simp [capacity]

/-- A table does not get more entries by removing one. -/
theorem size_remove_le (key : Value) : (t.remove key).2.size ≤ t.size := by
  unfold remove
  split
  · exact Nat.le_refl _
  · exact Nat.sub_le _ _

/-- A table that has removed an entry has as many slots as before. -/
@[simp] theorem capacity_remove (key : Value) : (t.remove key).2.capacity = t.capacity := by
  unfold remove
  split <;> simp [capacity]

/-- A table that has made room has as many entries as before. -/
@[simp] theorem size_reserve : t.reserve.size = t.size := by
  unfold reserve
  split
  · split <;> rfl
  · rfl

/-- A table that has placed an entry has one more. -/
@[simp] theorem size_place (e : Entry) : (t.place e).size = t.size + 1 := rfl

/-- A table that has placed an entry has as many slots as before. -/
@[simp] theorem capacity_place (e : Entry) : (t.place e).capacity = t.capacity :=
  size_settle t.slots e

/-- What an insertion leaves: the table as it was if the key is refused, another value under
a key that is there, and otherwise one more entry. -/
theorem answer_insert (key value : Value) :
    (t.answer (.insert key value)).2 =
      if key.isNaN then t
      else if t.contains key then (t.replace key value).2
      else t.reserve.place ⟨key, value⟩ := by
  rw [answer]
  cases hnan : key.isNaN with
  | true => simp [insert_of_nan value hnan]
  | false =>
    cases hcontains : t.contains key with
    | true => simp [insert_of_present value hnan hcontains]
    | false => simp [insert_of_absent value hnan hcontains]

end Sizes

/-- A table makes room by doubling exactly if one more entry would overload it without its
tombstones. -/
theorem Valid.capacity_reserve {t : Table} (h : t.Valid) :
    t.reserve.capacity =
      if Capacity.overloaded (t.size + 1) t.capacity then t.capacity * 2 else t.capacity := by
  have hlength := h.length_entries
  have hload := h.load
  simp only [Capacity.overloaded, decide_eq_true_iff]
  rcases Nat.lt_or_ge (t.capacity * 3) ((t.size + t.tombstones + 1) * 4) with hover | hroom
  · rw [reserve_of_overloaded hover]
    exact (h.layout.rehash _ (by split <;> omega)).2.1
  · rw [reserve_of_room hroom, if_neg (by omega)]

/-- A request adds at most one entry, and doubles the capacity exactly if the entries would
overload the old one. -/
theorem Valid.capacity_answer {t : Table} (h : t.Valid) (r : Request) :
    (t.answer r).2.size ≤ t.size + 1 ∧
      (t.answer r).2.capacity =
        if Capacity.overloaded (t.answer r).2.size t.capacity then t.capacity * 2
        else t.capacity := by
  have hload := h.load
  -- Nothing grows where no entry is added.
  have hkept {t' : Table} (hsize : t'.size ≤ t.size) (hcapacity : t'.capacity = t.capacity) :
      t'.size ≤ t.size + 1 ∧ t'.capacity =
        if Capacity.overloaded t'.size t.capacity then t.capacity * 2 else t.capacity := by
    refine ⟨Nat.le_succ_of_le hsize, ?_⟩
    rw [if_neg, hcapacity]
    unfold Capacity.overloaded
    rw [decide_eq_true_iff]
    omega
  cases r with
  | insert key value =>
    rw [answer_insert]
    split
    · exact hkept (Nat.le_refl _) rfl
    · split
      · exact hkept (by simp) (by simp)
      · rw [capacity_place, size_place, size_reserve]
        exact ⟨Nat.le_refl _, h.capacity_reserve⟩
  | get key => exact hkept (Nat.le_refl _) rfl
  | replace key value => exact hkept (by simp [Table.answer]) (by simp [Table.answer])
  | contains key => exact hkept (Nat.le_refl _) rfl
  | remove key => exact hkept (t.size_remove_le key) (t.capacity_remove key)

/-! ## Runs -/

/-- The most entries that a table has at any time in a run of requests. -/
def peak (t : Table) : List Request → Nat
  | [] => t.size
  | r :: rs => max t.size ((t.answer r).2.peak rs)

/-- The most entries of a run are not fewer than those at its start. -/
theorem size_le_peak (t : Table) (rs : List Request) : t.size ≤ t.peak rs := by
  cases rs with
  | nil => exact Nat.le_refl _
  | cons r rs => exact Nat.le_max_left _ _

/-- The peak is the greatest of the sizes after the first requests of a run, however many
these are. -/
theorem isGreatest_peak (t : Table) (rs : List Request) :
    IsGreatest {n | ∃ k, n = (answerAll Table.answer t (rs.take k)).2.size} (t.peak rs) := by
  induction rs generalizing t with
  | nil => exact ⟨⟨0, rfl⟩, by rintro n ⟨k, rfl⟩; simp [answerAll, peak]⟩
  | cons r rs ih =>
    obtain ⟨⟨k, hk⟩, hgreatest⟩ := ih (t.answer r).2
    constructor
    · rcases Nat.le_total t.size ((t.answer r).2.peak rs) with hle | hle
      · exact ⟨k + 1, (Nat.max_eq_right hle).trans hk⟩
      · exact ⟨0, Nat.max_eq_left hle⟩
    · rintro n ⟨k, rfl⟩
      cases k with
      | zero => exact Nat.le_max_left _ _
      | succ k => exact Nat.le_trans (hgreatest ⟨k, rfl⟩) (Nat.le_max_right _ _)

/-- If a table has the least capacity that suffices for the most entries it has had, it goes
on to have it through any run. -/
theorem isLeast_capacity {t : Table} (h : t.Valid) {initial entries : Nat}
    (hleast : IsLeast (Capacity.sufficing initial entries) t.capacity)
    (hsize : t.size ≤ entries) (rs : List Request) :
    IsLeast (Capacity.sufficing initial (max entries (t.peak rs)))
      (answerAll Table.answer t rs).2.capacity := by
  induction rs generalizing t entries with
  | nil =>
    rw [peak, Nat.max_eq_left hsize]
    exact hleast
  | cons r rs ih =>
    obtain ⟨hadded, hcapacity⟩ := h.capacity_answer r
    have hinitial : 16 ≤ t.capacity := h.initial_le
    have hnext := Capacity.isLeast_sufficing hleast (by omega)
      (hadded.trans (Nat.add_le_add_right hsize 1))
    rw [← hcapacity] at hnext
    have hpeak : max entries (t.peak (r :: rs)) =
        max (max entries (t.answer r).2.size) ((t.answer r).2.peak rs) := by
      have := (t.answer r).2.size_le_peak rs
      rw [peak]
      omega
    rw [hpeak]
    exact ih (h.answer r) hnext (Nat.le_max_right _ _)

/-- After any run of requests to a fresh table its capacity is the least that doubling the
initial one leads to and that the peak of the run does not overload. So later requests never
make it less, and leave it as it is unless there are more entries than ever before; and one
request at most doubles it. -/
theorem capacity_after_requests {requested : UInt64} {t₀ : Table}
    (h : withCapacity requested = .ok t₀) (rs : List Request) :
    let t := (answerAll Table.answer t₀ rs).2
    IsLeast {n | 4 * t₀.peak rs ≤ 3 * n ∧ ∃ j, n = t₀.capacity * 2 ^ j} t.capacity ∧
      (∀ later, t.capacity ≤ (answerAll Table.answer t later).2.capacity) ∧
      (∀ later, t.peak later ≤ t₀.peak rs →
        (answerAll Table.answer t later).2.capacity = t.capacity) ∧
      ∀ r, (t.answer r).2.capacity = t.capacity ∨ (t.answer r).2.capacity = t.capacity * 2 := by
  intro t
  have hfresh := Valid.withCapacity h
  have hvalid : t.Valid := hfresh.answerAll rs
  have hstart : IsLeast (Capacity.sufficing t₀.capacity t₀.size) t₀.capacity := by
    have hload := hfresh.load
    refine ⟨⟨by omega, 0, by simp⟩, ?_⟩
    rintro n ⟨-, j, rfl⟩
    exact Nat.le_mul_of_pos_right _ (Nat.two_pow_pos j)
  have hleast := isLeast_capacity hfresh hstart (Nat.le_refl _) rs
  rw [Nat.max_eq_right (t₀.size_le_peak rs)] at hleast
  have hsize : t.size ≤ t₀.peak rs := (t₀.isGreatest_peak rs).2 ⟨rs.length, by simp [t]⟩
  -- What the run leads to is least for its peak, so a later run may start from there.
  have hlater (later : List Request) := isLeast_capacity hvalid hleast hsize later
  refine ⟨?_, ?_, ?_, ?_⟩
  · simpa only [Capacity.sufficing, Nat.mul_comm] using hleast
  · intro later
    exact hleast.2 (Capacity.sufficing_anti (Nat.le_max_left _ _) (hlater later).1)
  · intro later hpeak
    have hsame := hlater later
    rw [Nat.max_eq_left hpeak] at hsame
    exact hsame.unique hleast
  · intro r
    rw [(hvalid.capacity_answer r).2]
    split
    · exact .inr rfl
    · exact .inl rfl

/-- Twelve entries, of which one is taken out, stored again, overwritten and taken out once
more, stay in sixteen slots. The thirteenth makes them thirty-two, also after all but one
have been taken out, and until there are more than thirteen. -/
theorem capacity_after_requests_thirteen :
    let key (i : Nat) : Value := .number ⟨i.toUInt64⟩
    let put (i : Nat) : Request := .insert (key i) .nil
    let dozen : List Request := (List.range 12).map put ++
      [.remove (key 0), put 0, .insert (.number ⟨0x8000000000000000⟩) (.text "z"),
        .insert (.number ⟨0x7ff8000000000000⟩) .nil, .remove (key 0)]
    let more : List Request := [put 12, put 13] ++ (List.range 12).map fun i => .remove (key i)
    let final := (answerAll Table.answer Table.empty (dozen ++ more)).2
    withCapacity 0 = .ok Table.empty ∧
      (answerAll Table.answer Table.empty dozen).2.capacity = 16 ∧
      Table.empty.peak (dozen ++ more) = 13 ∧ final.size = 2 ∧ final.capacity = 32 ∧
      ∀ later, final.peak later ≤ 13 →
        (answerAll Table.answer final later).2.capacity = 32 := by
  intro key put dozen more final
  have hempty : withCapacity 0 = .ok Table.empty := rfl
  have hpeak : Table.empty.peak (dozen ++ more) = 13 := by decide +kernel
  obtain ⟨hleast, -, hsame, -⟩ := capacity_after_requests hempty (dozen ++ more)
  rw [hpeak] at hleast hsame
  have hcapacity : final.capacity = 32 := by
    refine hleast.unique ⟨⟨by decide, 1, rfl⟩, ?_⟩
    rintro n ⟨hn, j, rfl⟩
    cases j with
    | zero => exact absurd hn (by decide)
    | succ j => exact Nat.mul_le_mul_left 16 (Nat.pow_le_pow_right Nat.two_pos (Nat.succ_pos j))
  refine ⟨hempty, by decide +kernel, hpeak, by decide +kernel, hcapacity, ?_⟩
  intro later hlater
  exact (hsame later hlater).trans hcapacity

end Table

end GradualScript
