import GradualScript.Number.Decimal
import Mathlib.Algebra.Group.Nat.Defs

/-!
# The decimal of a number

The decimals that read back as a number are those that round to it (`Binary.Rounds`). On one
grid they are the points of an interval around the number, so it is enough to look at the two
points next to it: if neither rounds to it, no point does (`Binary.onGrid?_eq_none_iff`), and
otherwise the one that is found is nearest (`Binary.onGrid?_eq_some`).

The grids are searched from the coarsest down. The finest one has steps that are smaller than
the interval around any number, and on those coarser than the coarsest one the first point
after zero is too large. So for a number that is finite and not zero there is always a decimal,
and none that rounds to the number has fewer places or is nearer with as many
(`Number.shortest_decimal`).

The text of a decimal has its digits in front of the point and behind it
(`Decimal.positional_digits`).
-/

set_option autoImplicit false

namespace GradualScript

namespace Decimal

/-- Zeros that are read after a number multiply it by a power of ten. -/
theorem ofDigitChars_zeros (n value : Nat) :
    Nat.ofDigitChars 10 (zeros n) value = value * 10 ^ n := by
  induction n generalizing value with
  | zero => exact (Nat.mul_one value).symm
  | succ n ih =>
    have hdigit : 10 * value + ('0'.toNat - '0'.toNat) = value * 10 := by
      rw [Nat.sub_self, Nat.add_zero, Nat.mul_comm]
    rw [zeros, List.replicate_succ, Nat.ofDigitChars_cons, hdigit, ← zeros, ih, Nat.mul_assoc,
      Nat.pow_succ']

/-- Digits in front of the point and behind it spell a decimal if there is at least one in front,
there are as many behind it as the decimal has places, and without the point they read as the
coefficient, with the zeros of a positive exponent. -/
structure Spells (whole fraction : List Char) (d : Decimal) : Prop where
  whole_ne_nil : whole ≠ []
  isDigit : ∀ c ∈ whole ++ fraction, c.isDigit = true
  places : fraction.length = (-d.exponent).toNat
  value : Nat.ofDigitChars 10 (whole ++ fraction) 0 = d.coefficient * 10 ^ d.exponent.toNat

section Digits

variable (d : Decimal)

/-- The digits of a coefficient read as the coefficient. -/
theorem ofDigitChars_digits :
    Nat.ofDigitChars 10 (Nat.toDigits 10 d.coefficient) 0 = d.coefficient :=
  Nat.ofDigitChars_toDigits (by decide) (by decide)

/-- The digits of a coefficient are digits. -/
theorem isDigit_of_mem_digits : ∀ c ∈ Nat.toDigits 10 d.coefficient, c.isDigit = true :=
  fun _ hc => Nat.isDigit_of_mem_toDigits (by decide) (by decide) hc

/-- Zeros are digits. -/
theorem isDigit_of_mem_zeros (n : Nat) : ∀ c ∈ zeros n, c.isDigit = true := by
  intro c hc
  obtain rfl := List.eq_of_mem_replicate hc
  rfl

variable {d}

/-- Without places the digits and the zeros of the exponent are all in front of the point. -/
theorem spells_whole (hplaces : (-d.exponent).toNat = 0) :
    Spells (Nat.toDigits 10 d.coefficient ++ zeros d.exponent.toNat) [] d where
  whole_ne_nil := List.append_ne_nil_of_left_ne_nil Nat.toDigits_ne_nil _
  isDigit := by
    rw [List.append_nil, List.forall_mem_append]
    exact ⟨isDigit_of_mem_digits d, isDigit_of_mem_zeros _⟩
  places := hplaces.symm
  value := by
    rw [List.append_nil, Nat.ofDigitChars_append, ofDigitChars_digits, ofDigitChars_zeros]

/-- With fewer places than digits the point is among the digits. -/
theorem spells_within (hplaces : (-d.exponent).toNat ≠ 0)
    (hwithin : (-d.exponent).toNat < (Nat.toDigits 10 d.coefficient).length) :
    let digits := Nat.toDigits 10 d.coefficient
    let whole := digits.length - (-d.exponent).toNat
    Spells (digits.take whole) (digits.drop whole) d := by
  intro digits whole
  have hnatural : d.exponent.toNat = 0 := by omega
  have hlength : (digits.take whole).length = whole := List.length_take_of_le (Nat.sub_le _ _)
  refine ⟨?_, ?_, ?_, ?_⟩
  · intro hnone
    rw [hnone] at hlength
    have hpos : 0 < whole := Nat.sub_pos_of_lt hwithin
    exact Nat.ne_of_gt hpos hlength.symm
  · rw [List.take_append_drop]
    exact isDigit_of_mem_digits d
  · rw [List.length_drop]
    exact Nat.sub_sub_self (Nat.le_of_lt hwithin)
  · rw [List.take_append_drop, ofDigitChars_digits, hnatural, Nat.pow_zero, Nat.mul_one]

/-- With at least as many places as digits a zero is in front of the point, and more of them fill
the places before the digits. -/
theorem spells_fraction (hplaces : (-d.exponent).toNat ≠ 0)
    (hbefore : (Nat.toDigits 10 d.coefficient).length ≤ (-d.exponent).toNat) :
    let digits := Nat.toDigits 10 d.coefficient
    Spells (zeros 1) (zeros ((-d.exponent).toNat - digits.length) ++ digits) d := by
  intro digits
  have hnatural : d.exponent.toNat = 0 := by omega
  have hleading : Nat.ofDigitChars 10
      (zeros 1 ++ zeros ((-d.exponent).toNat - digits.length)) 0 = 0 := by
    rw [Nat.ofDigitChars_append, ofDigitChars_zeros, ofDigitChars_zeros, Nat.zero_mul,
      Nat.zero_mul]
  refine ⟨List.cons_ne_nil _ _, ?_, ?_, ?_⟩
  · rw [List.forall_mem_append, List.forall_mem_append]
    exact ⟨isDigit_of_mem_zeros 1, isDigit_of_mem_zeros _, isDigit_of_mem_digits d⟩
  · rw [List.length_append, zeros, List.length_replicate]
    exact Nat.sub_add_cancel hbefore
  · rw [← List.append_assoc, Nat.ofDigitChars_append, hleading, ofDigitChars_digits, hnatural,
      Nat.pow_zero, Nat.mul_one]

end Digits

/-- The text of a decimal spells it. There is a point in it only if digits follow. -/
theorem positional_digits (d : Decimal) :
    ∃ whole fraction : List Char, Spells whole fraction d ∧
      d.positional =
        String.ofList (if fraction = [] then whole else whole ++ '.' :: fraction) := by
  rw [positional]
  dsimp only
  split
  · rename_i hplaces
    exact ⟨_, [], spells_whole hplaces, rfl⟩
  · rename_i hplaces
    split
    · rename_i hwithin
      have hspells := spells_within hplaces hwithin
      refine ⟨_, _, hspells, ?_⟩
      rw [if_neg]
      intro hnone
      exact hplaces (hspells.places.symm.trans (congrArg List.length hnone))
    · rename_i hbefore
      refine ⟨_, _, spells_fraction hplaces (Nat.not_lt.1 hbefore), ?_⟩
      rw [if_neg (List.append_ne_nil_of_right_ne_nil _ Nat.toDigits_ne_nil)]
      rfl

example : positional ⟨25, 3⟩ = "25000" ∧ positional ⟨25, -1⟩ = "2.5" ∧
    positional ⟨25, -3⟩ = "0.025" := by
  decide

end Decimal

namespace Binary

/-! ## The points that round to a fraction -/

/-- Whether a decimal rounds to a fraction, so that it reads back as the same number. -/
def Rounds (b : Binary) (d : Decimal) : Prop :=
  b.admits (b.scale d.exponent).unit (d.coefficient * (b.scale d.exponent).step) = true

/-- How far a decimal is from a fraction, on the scale of the decimal's grid. -/
def distance (b : Binary) (d : Decimal) : Nat :=
  let value := 4 * b.significand * (b.scale d.exponent).unit
  let point := d.coefficient * (b.scale d.exponent).step
  value - point + (point - value)

/-- The last point of a grid that is not above a fraction. -/
def below (b : Binary) (e : Int) : Nat :=
  4 * b.significand * (b.scale e).unit / (b.scale e).step

variable {b : Binary}

/-- The ends of the interval around a fraction belong to it if the significand is even. -/
theorem admits_iff {unit p : Nat} :
    b.admits unit p = true ↔
      (b.significand % 2 = 0 ∧ (4 * b.significand - if b.narrowBelow then 1 else 2) * unit ≤ p ∧
        p ≤ (4 * b.significand + 2) * unit) ∨
      (b.significand % 2 ≠ 0 ∧ (4 * b.significand - if b.narrowBelow then 1 else 2) * unit < p ∧
        p < (4 * b.significand + 2) * unit) := by
  rw [admits]
  by_cases heven : b.significand % 2 = 0 <;> simp [heven]

/-- The points that round to a fraction are an interval. -/
theorem admits_of_between {unit p q r : Nat} (hp : b.admits unit p = true)
    (hr : b.admits unit r = true) (hpq : p ≤ q) (hqr : q ≤ r) : b.admits unit q = true := by
  rw [admits_iff] at hp hr ⊢
  omega

/-- A point that is not below a fraction, and above it by less than half a last place, rounds
to it. -/
theorem admits_of_near {unit p : Nat} (hlow : 4 * b.significand * unit ≤ p)
    (hhigh : p < 4 * b.significand * unit + 2 * unit) : b.admits unit p = true := by
  have hunit : 0 < unit := by omega
  have hleft : (4 * b.significand - if b.narrowBelow then 1 else 2) * unit ≤
      4 * b.significand * unit := Nat.mul_le_mul_right unit (Nat.sub_le _ _)
  rw [admits_iff, Nat.add_mul]
  by_cases heven : b.significand % 2 = 0
  · exact .inl ⟨heven, by omega, by omega⟩
  · have hstrict : (4 * b.significand - if b.narrowBelow then 1 else 2) * unit <
        4 * b.significand * unit := by
      refine Nat.mul_lt_mul_of_pos_right ?_ hunit
      split <;> omega
    exact .inr ⟨heven, by omega, hhigh⟩

/-- A quarter of the last place of a fraction, on a common scale with a grid. -/
theorem scale_unit (b : Binary) (e : Int) :
    (b.scale e).unit = 2 ^ (b.exponent - 2).toNat * 10 ^ (-e).toNat := rfl

/-- A step of a grid, on a common scale with a fraction. -/
theorem scale_step (b : Binary) (e : Int) :
    (b.scale e).step = 2 ^ (2 - b.exponent).toNat * 10 ^ e.toNat := rfl

/-- A quarter of a last place is not nothing on any scale. -/
theorem scale_unit_pos (b : Binary) (e : Int) : 0 < (b.scale e).unit :=
  Nat.mul_pos (Nat.two_pow_pos _) (Nat.pow_pos (by decide))

/-- A step of a grid is not nothing on any scale. -/
theorem scale_step_pos (b : Binary) (e : Int) : 0 < (b.scale e).step :=
  Nat.mul_pos (Nat.two_pow_pos _) (Nat.pow_pos (by decide))

/-- A fraction is between two points of a grid that are next to each other. -/
theorem between_neighbours (b : Binary) (e : Int) :
    b.below e * (b.scale e).step ≤ 4 * b.significand * (b.scale e).unit ∧
      4 * b.significand * (b.scale e).unit < (b.below e + 1) * (b.scale e).step :=
  ⟨Nat.div_mul_le_self _ _,
    (Nat.div_lt_iff_lt_mul (b.scale_step_pos e)).1 (Nat.lt_succ_self (b.below e))⟩

/-- If a point of a grid rounds to a fraction, so does the one next to the fraction on the same
side. -/
theorem Rounds.neighbour {d : Decimal} (h : b.Rounds d) :
    d.coefficient ≤ b.below d.exponent ∧ b.Rounds ⟨b.below d.exponent, d.exponent⟩ ∨
      b.below d.exponent < d.coefficient ∧ b.Rounds ⟨b.below d.exponent + 1, d.exponent⟩ := by
  obtain ⟨hbelow, habove⟩ := b.between_neighbours d.exponent
  have hself : b.admits (b.scale d.exponent).unit
      (4 * b.significand * (b.scale d.exponent).unit) = true :=
    admits_of_near (Nat.le_refl _) (Nat.lt_add_of_pos_right (Nat.mul_pos Nat.two_pos
      (b.scale_unit_pos d.exponent)))
  rcases Nat.lt_or_ge (b.below d.exponent) d.coefficient with hlt | hge
  · exact .inr ⟨hlt, admits_of_between hself h (Nat.le_of_lt habove) (Nat.mul_le_mul_right _ hlt)⟩
  · exact .inl ⟨hge, admits_of_between h hself (Nat.mul_le_mul_right _ hge) hbelow⟩

/-! ## One grid -/

/-- On a grid the point below the fraction is found, the one above it, or none: one that rounds
to the fraction, and of two that do the nearer one, or the upper one if they are as near. -/
theorem onGrid?_cases (b : Binary) (e : Int) :
    (b.onGrid? e = some ⟨b.below e, e⟩ ∧ b.Rounds ⟨b.below e, e⟩ ∧
      (b.Rounds ⟨b.below e + 1, e⟩ →
        2 * (4 * b.significand * (b.scale e).unit) < (2 * b.below e + 1) * (b.scale e).step)) ∨
    (b.onGrid? e = some ⟨b.below e + 1, e⟩ ∧ b.Rounds ⟨b.below e + 1, e⟩ ∧
      (b.Rounds ⟨b.below e, e⟩ →
        (2 * b.below e + 1) * (b.scale e).step ≤ 2 * (4 * b.significand * (b.scale e).unit))) ∨
    (b.onGrid? e = none ∧ ¬b.Rounds ⟨b.below e, e⟩ ∧ ¬b.Rounds ⟨b.below e + 1, e⟩) := by
  have hbelow : 4 * b.significand * (b.scale e).unit / (b.scale e).step = b.below e := rfl
  simp only [onGrid?, Rounds, hbelow]
  cases b.admits (b.scale e).unit (b.below e * (b.scale e).step) <;>
    cases b.admits (b.scale e).unit ((b.below e + 1) * (b.scale e).step)
  · simp
  · simp
  · simp
  · rcases Nat.lt_or_ge (2 * (4 * b.significand * (b.scale e).unit))
      ((2 * b.below e + 1) * (b.scale e).step) with hlt | hge
    · simp [hlt]
    · simp [hge, Nat.not_lt.2 hge]

/-- Nothing is found on a grid exactly if none of its points rounds to the fraction. -/
theorem onGrid?_eq_none_iff {e : Int} :
    b.onGrid? e = none ↔ ∀ d : Decimal, d.exponent = e → ¬b.Rounds d := by
  constructor
  · rintro hnone d rfl hd
    rcases b.onGrid?_cases d.exponent with ⟨hsome, -⟩ | ⟨hsome, -⟩ | ⟨-, hbelow, habove⟩
    · exact absurd (hsome.symm.trans hnone) nofun
    · exact absurd (hsome.symm.trans hnone) nofun
    · rcases hd.neighbour with ⟨-, hd⟩ | ⟨-, hd⟩
      · exact hbelow hd
      · exact habove hd
  · intro hnone
    rcases b.onGrid?_cases e with ⟨-, hbelow, -⟩ | ⟨-, habove, -⟩ | ⟨hnone, -⟩
    · exact absurd hbelow (hnone _ rfl)
    · exact absurd habove (hnone _ rfl)
    · exact hnone

/-- What is found on a grid rounds to the fraction, and any other point of the grid that does is
further away, or as far and below it. -/
theorem onGrid?_eq_some {e : Int} {d : Decimal} (h : b.onGrid? e = some d) :
    d.exponent = e ∧ b.Rounds d ∧ ∀ d' : Decimal, d'.exponent = e → b.Rounds d' →
      b.distance d < b.distance d' ∨
        b.distance d = b.distance d' ∧ d'.coefficient ≤ d.coefficient := by
  obtain ⟨hlow, hhigh⟩ := b.between_neighbours e
  have hmiddle : (2 * b.below e + 1) * (b.scale e).step =
      b.below e * (b.scale e).step + (b.below e + 1) * (b.scale e).step := by
    rw [← Nat.add_mul]
    congr 1
    omega
  rcases b.onGrid?_cases e with ⟨hsome, hrounds, hother⟩ | ⟨hsome, hrounds, hother⟩ | ⟨hnone, -⟩
  · obtain rfl := Option.some.inj (h.symm.trans hsome)
    refine ⟨rfl, hrounds, ?_⟩
    rintro d' rfl hd'
    rcases hd'.neighbour with ⟨hle, -⟩ | ⟨hlt, habove⟩
    · have hpoint := Nat.mul_le_mul_right (b.scale d'.exponent).step hle
      simp only [distance]
      omega
    · have hpoint : (b.below d'.exponent + 1) * (b.scale d'.exponent).step ≤
          d'.coefficient * (b.scale d'.exponent).step := Nat.mul_le_mul_right _ hlt
      have hnearer := hother habove
      simp only [distance]
      omega
  · obtain rfl := Option.some.inj (h.symm.trans hsome)
    refine ⟨rfl, hrounds, ?_⟩
    rintro d' rfl hd'
    rcases hd'.neighbour with ⟨hle, hbelow⟩ | ⟨hlt, -⟩
    · have hpoint := Nat.mul_le_mul_right (b.scale d'.exponent).step hle
      have hnearer := hother hbelow
      simp only [distance]
      omega
    · rcases Nat.eq_or_lt_of_le (Nat.succ_le_of_lt hlt) with hsame | hfar
      · exact .inr ⟨by simp only [distance, ← hsame], Nat.le_of_eq hsame.symm⟩
      · have hpoint : (b.below d'.exponent + 1) * (b.scale d'.exponent).step <
            d'.coefficient * (b.scale d'.exponent).step :=
          Nat.mul_lt_mul_of_pos_right hfar (b.scale_step_pos d'.exponent)
        simp only [distance]
        omega
  · exact absurd (h.symm.trans hnone) nofun

/-- The number `2 ^ 50 + 1 / 4` is halfway between two points of the grid of tenths,
and goes to the upper one. -/
example : onGrid? ⟨2 ^ 52 + 1, -2, false⟩ (-1) = some ⟨11258999068426243, -1⟩ := by decide

/-! ## All grids -/

/-- What is found is found on one of the grids, and nothing is found on those that are
coarser. -/
theorem firstOnGrids?_eq_some {e : Int} {n : Nat} {d : Decimal}
    (h : b.firstOnGrids? e n = some d) :
    ∃ k ≤ n, b.onGrid? (e + k) = some d ∧ ∀ j ≤ n, k < j → b.onGrid? (e + j) = none := by
  induction n with
  | zero =>
    refine ⟨0, Nat.le_refl 0, ?_, fun j hj hlt => absurd hlt (Nat.not_lt.2 hj)⟩
    simpa [firstOnGrids?] using h
  | succ n ih =>
    rw [firstOnGrids?] at h
    cases hcoarsest : b.onGrid? (e + (n + 1)) with
    | some found =>
      rw [hcoarsest] at h
      obtain rfl := Option.some.inj h
      exact ⟨n + 1, Nat.le_refl _, hcoarsest, fun j hj hlt => absurd hlt (Nat.not_lt.2 hj)⟩
    | none =>
      rw [hcoarsest] at h
      obtain ⟨k, hk, hfound, hcoarser⟩ := ih h
      refine ⟨k, Nat.le_succ_of_le hk, hfound, fun j hj hlt => ?_⟩
      rcases Nat.le_succ_iff.1 hj with hle | rfl
      · exact hcoarser j hle hlt
      · exact hcoarsest

/-- Something is found if there is something on the finest grid. -/
theorem exists_firstOnGrids? {e : Int} (n : Nat) (h : b.onGrid? e ≠ none) :
    ∃ d, b.firstOnGrids? e n = some d := by
  induction n with
  | zero => exact Option.ne_none_iff_exists'.1 h
  | succ n ih =>
    rw [firstOnGrids?]
    cases b.onGrid? (e + (n + 1)) with
    | some found => exact ⟨found, rfl⟩
    | none => exact ih

/-- What the search for a decimal takes of a fraction: it is positive, and neither finer than
the least of the numbers nor larger than the largest. -/
structure IsMagnitude (b : Binary) : Prop where
  significand_pos : 0 < b.significand
  significand_lt : b.significand < 2 ^ 53
  le_exponent : -1074 ≤ b.exponent
  exponent_le : b.exponent ≤ 971

/-- A step of the finest grid is smaller than a quarter of the last place of a fraction. -/
theorem IsMagnitude.step_lt_unit (h : b.IsMagnitude) :
    (b.scale (-324)).step < (b.scale (-324)).unit := by
  have hexponent : (2 - b.exponent).toNat ≤ 1076 := by
    have hle := h.le_exponent
    omega
  calc (b.scale (-324)).step = 2 ^ (2 - b.exponent).toNat := by
        have hwhole : (-324 : Int).toNat = 0 := rfl
        rw [scale_step, hwhole, Nat.pow_zero, Nat.mul_one]
    _ ≤ 2 ^ 1076 := Nat.pow_le_pow_right Nat.two_pos hexponent
    _ < 10 ^ (-(-324) : Int).toNat := by decide +kernel
    _ ≤ (b.scale (-324)).unit := by
        rw [scale_unit]
        exact Nat.le_mul_of_pos_left _ (Nat.two_pow_pos _)

/-- On a grid that is coarser than the coarsest one, a single step is more than the upper end of
the interval around a fraction. -/
theorem IsMagnitude.interval_lt_step (h : b.IsMagnitude) {e : Int} (he : 308 < e) :
    (4 * b.significand + 2) * (b.scale e).unit < (b.scale e).step := by
  have hsignificand : 4 * b.significand + 2 ≤ 2 ^ 55 := by
    have hlt := h.significand_lt
    omega
  have hexponent : (b.exponent - 2).toNat ≤ 969 := by
    have hle := h.exponent_le
    omega
  have hplaces : 309 ≤ e.toNat := by omega
  have htwos (m n : Nat) (hle : m ≤ n) : 2 ^ m ≤ 2 ^ n := Nat.pow_le_pow_right (by decide) hle
  have htens (m n : Nat) (hle : m ≤ n) : 10 ^ m ≤ 10 ^ n := Nat.pow_le_pow_right (by decide) hle
  have hunit : (b.scale e).unit = 2 ^ (b.exponent - 2).toNat := by
    rw [scale_unit, Int.toNat_of_nonpos (by omega : -e ≤ 0), Nat.pow_zero, Nat.mul_one]
  calc (4 * b.significand + 2) * (b.scale e).unit ≤ 2 ^ 55 * 2 ^ 969 := by
        rw [hunit]
        exact Nat.mul_le_mul hsignificand (htwos _ 969 hexponent)
    _ < 10 ^ 309 := by decide +kernel
    _ ≤ 10 ^ e.toNat := htens 309 _ hplaces
    _ ≤ (b.scale e).step := Nat.le_mul_of_pos_left _ (Nat.two_pow_pos _)

/-- Something is found on the finest grid. -/
theorem IsMagnitude.onGrid?_finest (h : b.IsMagnitude) : b.onGrid? (-324) ≠ none := by
  obtain ⟨hbelow, habove⟩ := b.between_neighbours (-324)
  have hnear : (b.below (-324) + 1) * (b.scale (-324)).step <
      4 * b.significand * (b.scale (-324)).unit + 2 * (b.scale (-324)).unit := by
    have hfine := h.step_lt_unit
    rw [Nat.succ_mul]
    omega
  intro hnone
  exact onGrid?_eq_none_iff.1 hnone ⟨b.below (-324) + 1, -324⟩ rfl
    (admits_of_near (Nat.le_of_lt habove) hnear)

/-- No decimal on a grid that is coarser than the coarsest one rounds to a fraction. -/
theorem IsMagnitude.exponent_le_of_rounds (h : b.IsMagnitude) {d : Decimal} (hd : b.Rounds d) :
    d.exponent ≤ 308 := by
  refine Int.not_lt.1 fun hgt => ?_
  have hcoarse := h.interval_lt_step hgt
  have hlow : 0 < (4 * b.significand - if b.narrowBelow then 1 else 2) *
      (b.scale d.exponent).unit := by
    have hpos := h.significand_pos
    exact Nat.mul_pos (by split <;> omega) (b.scale_unit_pos d.exponent)
  rw [Rounds, admits_iff] at hd
  cases hcoefficient : d.coefficient with
  | zero =>
    -- Zero is below the interval.
    rw [hcoefficient, Nat.zero_mul] at hd
    omega
  | succ q =>
    have hpoint : (b.scale d.exponent).step ≤ d.coefficient * (b.scale d.exponent).step :=
      Nat.le_mul_of_pos_left _ (hcoefficient ▸ Nat.succ_pos q)
    omega

/-- There is always a shortest decimal. It rounds to the fraction, and any other decimal that does
has more places, or as many and is further away, or as far and below it. -/
theorem IsMagnitude.shortest (h : b.IsMagnitude) :
    b.Rounds b.shortest ∧ ∀ d, b.Rounds d → d.exponent < b.shortest.exponent ∨
      d.exponent = b.shortest.exponent ∧ (b.distance b.shortest < b.distance d ∨
        b.distance b.shortest = b.distance d ∧ d.coefficient ≤ b.shortest.coefficient) := by
  obtain ⟨found, hfound⟩ := exists_firstOnGrids? 632 h.onGrid?_finest
  have hshortest : b.shortest = found := by rw [Binary.shortest, hfound, Option.getD_some]
  obtain ⟨k, hk, hgrid, hcoarser⟩ := firstOnGrids?_eq_some hfound
  obtain ⟨hexponent, hrounds, hnearest⟩ := onGrid?_eq_some hgrid
  rw [hshortest]
  refine ⟨hrounds, fun d hd => ?_⟩
  have hlimit := h.exponent_le_of_rounds hd
  rcases Int.lt_trichotomy d.exponent found.exponent with hlt | heq | hgt
  · exact .inl hlt
  · exact .inr ⟨heq, hnearest d (heq.trans hexponent) hd⟩
  · have hnone := hcoarser (d.exponent + 324).toNat (by omega) (by omega)
    exact absurd hd (onGrid?_eq_none_iff.1 hnone d (by omega))

end Binary

namespace Number

/-- The magnitude of a number that is finite and not zero is within what the search for a
decimal takes. -/
theorem isMagnitude_toBinary {x : Number} (hfinite : x.magnitude < infiniteMagnitude)
    (hpos : x.isZero = false) : x.toBinary.IsMagnitude := by
  have hpower : Nat.pow 2 52 = 2 ^ 52 := rfl
  have hmagnitude : x.magnitude ≠ 0 := by simpa [isZero] using hpos
  rw [infiniteMagnitude, hpower] at hfinite
  rw [toBinary, exponentField, fractionField, hpower]
  split
  · exact {
      significand_pos := by dsimp only; omega
      significand_lt := by dsimp only; omega
      le_exponent := Int.le_refl _
      exponent_le := by dsimp only; omega }
  · exact {
      significand_pos := by dsimp only; omega
      significand_lt := by dsimp only; omega
      le_exponent := by dsimp only; omega
      exponent_le := by dsimp only; omega }

/-- The decimal of a number that is finite and not zero rounds to it. Any other decimal that
does has more places, or as many and is further away, or as far and below it. -/
theorem shortest_decimal (x : Number) (hfinite : x.magnitude < infiniteMagnitude)
    (hpos : x.isZero = false) :
    let b := x.toBinary
    b.Rounds b.shortest ∧ ∀ d, b.Rounds d → d.exponent < b.shortest.exponent ∨
      d.exponent = b.shortest.exponent ∧ (b.distance b.shortest < b.distance d ∨
        b.distance b.shortest = b.distance d ∧ d.coefficient ≤ b.shortest.coefficient) :=
  (isMagnitude_toBinary hfinite hpos).shortest

end Number

end GradualScript
