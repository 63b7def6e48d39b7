import GradualScript.Proofs.Table.Filling

/-!
# Which types a table fits

Whether a table fits a table type is a matter of its entries alone. The key type has to take
every key and the value type every value, and a type takes a value if it is `Any` or the
primitive type of the value's kind (`Ty.Takes`). A type with components, or a name, takes no
value at all, so only a table without entries fits a table type in which there is one.

The entries of a table change with every request as those of the dictionary it stands for do
(`Table.Represents.answer`), whatever happens to its slots. So the types that it fits after a
request can be told from the entries before it: fewer entries fit whatever more did, a new
entry has to fit by itself, and an entry with a new value no longer depends on the old one
(`Table.conforms_by_entries`).
-/

set_option autoImplicit false

namespace GradualScript

/-- No value is of the kind `Any`, which is for types only. -/
theorem Value.kind_ne_any (v : Value) : v.kind ≠ .any := by
  cases v <;> simp [kind]

namespace Ty

/-- A type takes a value if it is `Any` or the type of the value's kind. -/
def Takes (ty : Ty) (v : Value) : Prop := ty = .any ∨ ty = .primitive v.kind

instance (ty : Ty) (v : Value) : Decidable (ty.Takes v) :=
  inferInstanceAs (Decidable (ty = .any ∨ ty = .primitive v.kind))

/-- A primitive type takes the values of its kind, or all of them. -/
theorem takes_primitive_iff {kind : Primitive} {v : Value} :
    (primitive kind).Takes v ↔ kind = .any ∨ v.kind = kind := by
  rw [Takes, primitive.injEq, primitive.injEq, eq_comm (a := v.kind)]

/-- A type that takes any value at all is primitive. -/
theorem Takes.exists_kind {ty : Ty} {v : Value} (h : ty.Takes v) :
    ∃ kind, ty = .primitive kind := by
  rcases h with rfl | rfl
  · exact ⟨_, rfl⟩
  · exact ⟨_, rfl⟩

/-- The values that a type takes are those whose kinds it is compatible with. -/
theorem compatible_kind_iff {ty : Ty} {v : Value} :
    ty.compatible (.primitive v.kind) = true ↔ ty.Takes v := by
  cases ty with
  | primitive kind =>
    rw [takes_primitive_iff, compatible, Primitive.compatible, eq_comm (a := v.kind)]
    simp [v.kind_ne_any, or_comm]
  | _ => simp [compatible, Takes]

end Ty

namespace Table

variable {t : Table} {d : Dictionary} {keyTy valueTy : Ty}

/-- A table fits a table type if the key type takes all its keys and the value type all its
values. -/
theorem conformsTo_table_iff :
    t.conformsTo (.table keyTy valueTy) = true ↔
      ∀ e ∈ t.entries, keyTy.Takes e.key ∧ valueTy.Takes e.value := by
  simp only [conformsTo, List.all_eq_true, Bool.and_eq_true, Ty.compatible_kind_iff]

/-- Whether a table fits a type can be told from the dictionary that it stands for. -/
theorem Represents.conformsTo_table_iff (h : t.Represents d) :
    t.conformsTo (.table keyTy valueTy) = true ↔
      ∀ e ∈ d, keyTy.Takes e.key ∧ valueTy.Takes e.value := by
  simp only [h.conformsTo_iff, Ty.compatible_kind_iff]

/-- A table with entries fits only types with primitive components. -/
theorem exists_kinds_of_conformsTo (h : t.conformsTo (.table keyTy valueTy) = true)
    (hsome : t.entries ≠ []) :
    (∃ kind, keyTy = .primitive kind) ∧ ∃ kind, valueTy = .primitive kind := by
  obtain ⟨e, he⟩ := List.exists_mem_of_ne_nil t.entries hsome
  obtain ⟨hkey, hvalue⟩ := conformsTo_table_iff.1 h e he
  exact ⟨hkey.exists_kind, hvalue.exists_kind⟩

/-- The types that a table fits, read off its entries. -/
theorem conformsTo_iff (ty : Ty) :
    t.conformsTo ty = true ↔ ∃ keyTy valueTy, ty = .table keyTy valueTy ∧
      (t.entries = [] ∨ ∃ keyKind valueKind : Primitive,
        keyTy = .primitive keyKind ∧ valueTy = .primitive valueKind ∧
          ∀ e ∈ t.entries, (keyKind = .any ∨ e.key.kind = keyKind) ∧
            (valueKind = .any ∨ e.value.kind = valueKind)) := by
  constructor
  · intro hfits
    cases ty with
    | table keyTy valueTy =>
      refine ⟨keyTy, valueTy, rfl, ?_⟩
      by_cases hnone : t.entries = []
      · exact .inl hnone
      · obtain ⟨⟨keyKind, rfl⟩, valueKind, rfl⟩ := exists_kinds_of_conformsTo hfits hnone
        simp only [conformsTo_table_iff, Ty.takes_primitive_iff] at hfits
        exact .inr ⟨keyKind, valueKind, rfl, rfl, hfits⟩
    | _ => exact absurd hfits Bool.false_ne_true
  · rintro ⟨keyTy, valueTy, rfl, hnone | ⟨keyKind, valueKind, rfl, rfl, hkinds⟩⟩
    · rw [conformsTo_table_iff, hnone]
      exact List.forall_mem_nil _
    · simpa only [conformsTo_table_iff, Ty.takes_primitive_iff] using hkinds

/-! ## After a request -/

/-- A table with one entry less fits the types that it fitted before. -/
theorem Represents.conformsTo_remove (h : t.Represents d) (key : Value)
    (hfits : t.conformsTo (.table keyTy valueTy) = true) :
    (t.answer (.remove key)).2.conformsTo (.table keyTy valueTy) = true := by
  rw [h.conformsTo_table_iff] at hfits
  rw [(h.answer (.remove key)).2.conformsTo_table_iff]
  exact fun e he => hfits e (List.mem_filter.1 he |>.1)

/-- With a new entry a table fits the types that it fitted before and that the entry fits. -/
theorem Represents.conformsTo_insert_of_absent (h : t.Represents d) {key value : Value}
    (hnan : key.isNaN = false) (habsent : d.holding? key = none) :
    (t.answer (.insert key value)).2.conformsTo (.table keyTy valueTy) = true ↔
      t.conformsTo (.table keyTy valueTy) = true ∧ keyTy.Takes key ∧ valueTy.Takes value := by
  have hstored : (t.answer (.insert key value)).2.Represents (⟨key, value⟩ :: d) :=
    Dictionary.store_of_absent (e := ⟨key, value⟩) hnan habsent ▸ (h.answer (.insert key value)).2
  rw [hstored.conformsTo_table_iff, h.conformsTo_table_iff, List.forall_mem_cons, and_comm]

/-- With a new value under a key that is there, it is the new value that has to fit. -/
theorem Represents.conformsTo_insert_of_present (h : t.Represents d) {key value : Value}
    {e : Entry} (hnan : key.isNaN = false) (hpresent : d.holding? key = some e) :
    (t.answer (.insert key value)).2.conformsTo (.table keyTy valueTy) = true ↔
      ∀ f ∈ d, keyTy.Takes f.key ∧
        valueTy.Takes (if f.key.same key = true then value else f.value) := by
  have hstored : (t.answer (.insert key value)).2.Represents (d.assign key value) :=
    Dictionary.store_of_present (e := ⟨key, value⟩) hnan hpresent ▸ (h.answer (.insert key value)).2
  rw [hstored.conformsTo_table_iff, Dictionary.assign, List.forall_mem_map]
  refine forall₂_congr fun f _ => ?_
  split <;> rfl

/-- Which types a table fits that a run of requests has reached:

* a type that it fits is a table type, and then either the table has no entries, or the key type
  and the value type are primitive, every key is of the one kind and every value of the other,
  where `Any` stands for every kind;
* it goes on to fit a table type when a key is removed;
* with a new key it fits a table type if it did before and the types take the new key and the
  new value, and not otherwise;
* with a new value under a key that is there it fits a table type if the types take all keys,
  the new value and the values of the other keys, whatever the old value was;
* it does not fit a table type of which a component is not primitive, unless it has no
  entries. -/
theorem conforms_by_entries {requested : UInt64} {t₀ : Table}
    (h : withCapacity requested = .ok t₀) (rs : List Request) :
    let t := (answerAll Table.answer t₀ rs).2
    (∀ ty, t.conformsTo ty = true ↔ ∃ keyTy valueTy, ty = .table keyTy valueTy ∧
      (t.entries = [] ∨ ∃ keyKind valueKind : Primitive,
        keyTy = .primitive keyKind ∧ valueTy = .primitive valueKind ∧
          ∀ e ∈ t.entries, (keyKind = .any ∨ e.key.kind = keyKind) ∧
            (valueKind = .any ∨ e.value.kind = valueKind))) ∧
      ∀ keyTy valueTy,
        (∀ key, t.conformsTo (.table keyTy valueTy) = true →
          (t.answer (.remove key)).2.conformsTo (.table keyTy valueTy) = true) ∧
        (∀ key value, key.isNaN = false → t.contains key = false →
          ((t.answer (.insert key value)).2.conformsTo (.table keyTy valueTy) = true ↔
            t.conformsTo (.table keyTy valueTy) = true ∧ keyTy.Takes key ∧
              valueTy.Takes value)) ∧
        (∀ key value, t.contains key = true →
          ((t.answer (.insert key value)).2.conformsTo (.table keyTy valueTy) = true ↔
            ∀ e ∈ t.entries, keyTy.Takes e.key ∧
              valueTy.Takes (if e.key.same key = true then value else e.value))) ∧
        (t.entries ≠ [] → ((∀ kind, keyTy ≠ .primitive kind) ∨ ∀ kind, valueTy ≠ .primitive kind) →
          t.conformsTo (.table keyTy valueTy) = false) := by
  intro t
  have ht : t.Represents t.entries := ⟨(Valid.withCapacity h).answerAll rs, List.Perm.refl _⟩
  refine ⟨fun ty => conformsTo_iff ty, fun keyTy valueTy => ⟨fun key => ht.conformsTo_remove key,
    fun key value hnan habsent => ?_, fun key value hpresent => ?_, fun hsome hcomponent => ?_⟩⟩
  · rw [ht.contains_eq, Option.isSome_eq_false_iff, Option.isNone_iff_eq_none] at habsent
    exact ht.conformsTo_insert_of_absent hnan habsent
  · rw [ht.contains_eq, Option.isSome_iff_exists] at hpresent
    obtain ⟨e, hfound⟩ := hpresent
    have hnan := Value.isNaN_eq_false_of_same (Dictionary.holding?_sound hfound).2
    exact ht.conformsTo_insert_of_present hnan hfound
  · rw [Bool.eq_false_iff]
    intro hfits
    obtain ⟨⟨keyKind, hkey⟩, valueKind, hvalue⟩ := exists_kinds_of_conformsTo hfits hsome
    rcases hcomponent with hcomposite | hcomposite
    · exact hcomposite keyKind hkey
    · exact hcomposite valueKind hvalue

/-- Thirteen numbers, one of them under a text by mistake, and a tombstone in thirty-two slots.
The table fits no type with the kind of the other values, until the text is overwritten through
the other zero. It fits a type that leaves the values open, also when a key is removed, and no
longer when a text is added as a key. -/
theorem conforms_by_entries_repaired :
    let key (i : Nat) : Value := .number ⟨i.toUInt64⟩
    let minus : Value := .number ⟨0x8000000000000000⟩
    let rs : List Request := (List.range 13).map (fun i => .insert (key i) .nil) ++
      [.insert (key 0) (.text "a"), .remove (key 5)]
    let t := (answerAll Table.answer Table.empty rs).2
    withCapacity 0 = .ok Table.empty ∧ t.capacity = 32 ∧ t.tombstones = 1 ∧
      t.conformsTo (.table .number .nil) = false ∧
      (t.answer (.insert minus .nil)).2.conformsTo (.table .number .nil) = true ∧
      t.conformsTo (.table .number .any) = true ∧
      (t.answer (.remove (key 1))).2.conformsTo (.table .number .any) = true ∧
      (t.answer (.insert (.text "k") .nil)).2.conformsTo (.table .number .any) = false ∧
      t.conformsTo (.table .any (.array .any)) = false := by
  intro key minus rs t
  have hempty : withCapacity 0 = .ok Table.empty := rfl
  obtain ⟨htypes, hrequests⟩ := conforms_by_entries hempty rs
  obtain ⟨-, -, hoverwritten, -⟩ := hrequests .number .nil
  obtain ⟨hremoved, hadded, -, -⟩ := hrequests .number .any
  obtain ⟨-, -, -, hcomponent⟩ := hrequests .any (.array .any)
  have hfits : t.conformsTo (.table .number .any) = true :=
    (htypes _).2 ⟨_, _, rfl, .inr ⟨.number, .any, rfl, rfl, by decide +kernel⟩⟩
  refine ⟨hempty, by decide +kernel, by decide +kernel, by decide +kernel,
    (hoverwritten minus .nil (by decide +kernel)).2 (by decide +kernel), hfits,
    hremoved (key 1) hfits, ?_, hcomponent (by decide +kernel) (.inr fun kind => nofun)⟩
  rw [Bool.eq_false_iff]
  intro hnew
  obtain ⟨-, hkey, -⟩ := (hadded (.text "k") .nil rfl (by decide +kernel)).1 hnew
  exact absurd hkey (by decide)

end Table

end GradualScript
