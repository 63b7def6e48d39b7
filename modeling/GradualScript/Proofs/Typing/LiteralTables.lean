import GradualScript.Proofs.Table.Filling
import GradualScript.Proofs.Typing.Runs

/-!
# Tables of literals, checked and run

A table constructor whose keys and values are literals can be checked, which finds a table
type and may report mismatches, and it can be run, which fills a table with the values of the
literals. The check holds every key against the first key and every value against the first
value. The table holds the kinds of its entries against a type.

Both look at kinds only. So a table that is filled from a constructor without mismatches fits
the type that was found (`Context.check_table_conforms`). The converse takes keys that differ
from one another: a mismatch goes unnoticed at run time when the value at fault is overwritten.
-/

set_option autoImplicit false

namespace GradualScript

/-- The form of a literal of a value. -/
def Value.literal : Value → Form
  | .number x => .number x
  | .text s => .text s
  | .boolean b => .boolean b
  | .nil => .nil

/-- The types of values. -/
def Value.kindTys (values : List Value) : List Ty := values.map fun v => .primitive v.kind

namespace Ty

/-- Primitive types that are compatible are accepted, and no others. -/
theorem accepts_primitive (a b : Primitive) :
    (primitive a).accepts (primitive b) = (primitive a).compatible (primitive b) := by
  cases a <;> cases b <;> rfl

/-- Nothing is reported of items of primitive types exactly if the type that stands for all of
them is compatible with each. -/
theorem expectAlike_kindTys_eq_nil_iff (values : List Value) :
    expectAlike none (Value.kindTys values) = [] ↔
      ∀ v ∈ values, ((Value.kindTys values).headD .any).compatible (.primitive v.kind) = true := by
  cases values with
  | nil => simp [Value.kindTys, expectAlike]
  | cons first others =>
    have hself : (primitive first.kind).compatible (.primitive first.kind) = true := by
      simp [compatible, Primitive.compatible]
    have hcons : Value.kindTys (first :: others) =
        .primitive first.kind :: Value.kindTys others := rfl
    have hexpect : expectAlike none (Value.kindTys (first :: others)) =
        (Value.kindTys others).flatMap (primitive first.kind).expect := by
      rw [hcons, expectAlike, Option.getD_none, expectAlike_some]
      rfl
    rw [hexpect, hcons, List.headD_cons, List.forall_mem_cons, List.flatMap_eq_nil_iff]
    simp only [Value.kindTys, List.forall_mem_map, expect_eq_nil_iff, accepts_primitive, hself,
      true_and]

end Ty

namespace Checker

variable (c : Checker) (s : Scope)

/-- A literal has the kind of its value, and there is nothing to report. -/
theorem run_check_literal {node : Node} {v : Value} (h : node.form = v.literal) :
    ((c.check node).run s).result.ty = .primitive v.kind ∧
      ((c.check node).run s).scope = s ∧ ((c.check node).run s).reports = [] := by
  obtain ⟨form, location, ty⟩ := node
  obtain rfl := h
  cases v <;> simp [Value.literal, run_check, infer, Value.kind]

/-- Literals have the types of their kinds, leave the scope as it is, and nothing is reported of
them. -/
theorem run_checkEach_literals {nodes : List Node} {values : List Value}
    (h : nodes.map (·.form) = values.map Value.literal) :
    ((c.checkEach nodes).run s).result.map (·.ty) = Value.kindTys values ∧
      ((c.checkEach nodes).run s).scope = s ∧ ((c.checkEach nodes).run s).reports = [] := by
  induction values generalizing nodes with
  | nil =>
    obtain rfl := List.map_eq_nil_iff.1 h
    exact ⟨rfl, rfl, rfl⟩
  | cons v values ih =>
    obtain ⟨node, rest, rfl, hnode, hrest⟩ := List.map_eq_cons_iff.1 h
    obtain ⟨hty, hscope, hreports⟩ := c.run_check_literal s hnode
    obtain ⟨htys, hscopes, hrestReports⟩ := ih hrest
    rw [run_checkEach_cons]
    simp only [hscope, hreports, List.nil_append, List.map_cons, hty, htys]
    exact ⟨rfl, hscopes, hrestReports⟩

/-- Literals that are held against the first of them are reported where they do not fit. -/
theorem run_checkAlike_literals {nodes : List Node} {values : List Value}
    (h : nodes.map (·.form) = values.map Value.literal) :
    ((c.checkAlike none nodes).run s).reports.Perm
      (Ty.expectAlike none (Value.kindTys values)) := by
  obtain ⟨-, -, hperm⟩ := c.run_checkAlike none nodes s
  obtain ⟨htys, -, hreports⟩ := c.run_checkEach_literals s h
  rwa [htys, hreports, List.nil_append] at hperm

/-- The first of some literals has the type of its kind. -/
theorem headTy_literals {nodes : List Node} {values : List Value}
    (h : nodes.map (·.form) = values.map Value.literal) :
    Typed.headTy ((c.checkEach nodes).run s).result = (Value.kindTys values).headD .any := by
  obtain ⟨htys, -, -⟩ := c.run_checkEach_literals s h
  rw [← htys]
  cases ((c.checkEach nodes).run s).result <;> rfl

/-- A table constructor of literals has the kinds of its first key and its first value for a
type. All keys and all values are held against these. -/
theorem run_check_literalTable {node : Node} {pairs : List (Node × Node)} {es : List Entry}
    (h : node.form = .table pairs)
    (hkeys : pairs.map (·.1.form) = es.map (·.key.literal))
    (hvalues : pairs.map (·.2.form) = es.map (·.value.literal)) :
    let keys := Value.kindTys (es.map (·.key))
    let values := Value.kindTys (es.map (·.value))
    ((c.check node).run s).result.ty = .table (keys.headD .any) (values.headD .any) ∧
      ((c.check node).run s).reports.Perm
        (Ty.expectAlike none keys ++ Ty.expectAlike none values) := by
  obtain ⟨form, location, ty⟩ := node
  obtain rfl := h
  have hkeyForms : (pairs.map (·.1)).map (·.form) = (es.map (·.key)).map Value.literal := by
    rw [List.map_map, List.map_map]
    exact hkeys
  have hvalueForms : (pairs.map (·.2)).map (·.form) = (es.map (·.value)).map Value.literal := by
    rw [List.map_map, List.map_map]
    exact hvalues
  intro keys values
  rw [run_check, run_infer_table]
  refine ⟨?_, ?_⟩
  · dsimp only
    rw [headTy_literals c _ hkeyForms, headTy_literals c _ hvalueForms]
  · exact (run_checkAlike_literals c _ hkeyForms).append (run_checkAlike_literals c _ hvalueForms)

end Checker

namespace Context

/-- A table constructor of literals is checked in any context, and a fresh table is filled with
the values of the literals, none of whose keys is not-a-number. The check gives a table type.
If it reports nothing, the table fits that type, and so does every value that the table gives.
If the keys differ from one another, the table fits that type only if nothing was reported. -/
theorem check_table_conforms (ctx : Context) (ops : Operators) (node : Node)
    {pairs : List (Node × Node)} {es : List Entry} (hnode : node.form = .table pairs)
    (hkeys : pairs.map (·.1.form) = es.map (·.key.literal))
    (hvalues : pairs.map (·.2.form) = es.map (·.value.literal))
    (hnan : ∀ e ∈ es, e.key.isNaN = false) {requested : UInt64} {fresh : Table}
    (hfresh : Table.withCapacity requested = .ok fresh) :
    ∃ key value added t, (ctx.check ops node).1.ty = .table key value ∧
      (ctx.check ops node).2.diagnostics = ctx.diagnostics ++ added ∧ fresh.fill es = .ok t ∧
      (added = [] → t.conformsTo (.table key value) = true ∧
        ∀ k v, t.get? k = some v → value.compatible (.primitive v.kind) = true) ∧
      ((es.Pairwise fun e f => e.key.same f.key = false) →
        (t.conformsTo (.table key value) = true ↔ added = [])) := by
  let keyTy := (Value.kindTys (es.map (·.key))).headD .any
  let valueTy := (Value.kindTys (es.map (·.value))).headD .any
  obtain ⟨hty, hperm⟩ :=
    (ctx.checker ops).run_check_literalTable ctx.scope hnode hkeys hvalues
  obtain ⟨t, hfill, ht⟩ := (Table.represents_nil hfresh).fill hnan
  -- There are no reports if the kinds of all keys and of all values fit.
  have hclean : (((ctx.checker ops).check node).run ctx.scope).reports = [] ↔
      ∀ e ∈ es, keyTy.compatible (.primitive e.key.kind) = true ∧
        valueTy.compatible (.primitive e.value.kind) = true := by
    rw [← List.length_eq_zero_iff, hperm.length_eq, List.length_eq_zero_iff,
      List.append_eq_nil_iff, Ty.expectAlike_kindTys_eq_nil_iff,
      Ty.expectAlike_kindTys_eq_nil_iff, List.forall_mem_map, List.forall_mem_map]
    constructor
    · rintro ⟨hkey, hvalue⟩ e he
      exact ⟨hkey e he, hvalue e he⟩
    · intro h
      exact ⟨fun e he => (h e he).1, fun e he => (h e he).2⟩
  refine ⟨keyTy, valueTy, _, t, ?_, diagnostics_check ctx ops node, hfill, ?_, ?_⟩
  · rw [result_check]
    exact hty
  · intro hnone
    have hfits := Dictionary.fill_keeps (P := fun k => keyTy.compatible (.primitive k.kind) = true)
      (Q := fun v => valueTy.compatible (.primitive v.kind) = true) (d := []) (by simp)
      (hclean.1 hnone)
    refine ⟨(ht.conformsTo_iff _ _).2 hfits, ?_⟩
    intro k v hget
    obtain ⟨e, he, rfl⟩ := ht.exists_of_get? hget
    exact (hfits e he).2
  · intro hdistinct
    have hsame := Dictionary.fill_perm (d := []) hnan hdistinct (by simp)
    rw [ht.conformsTo_iff, hclean]
    simp [hsame.mem_iff]

/-- A second key and a second value of other kinds than the first are both reported, and the
table that is filled does not fit the type that was found. With a second key and a second value
of the same kinds nothing is reported, the table fits the type, and so does what it gives for
the second key. -/
theorem check_table_conforms_mixed :
    let one : Value := .number ⟨0x3ff0000000000000⟩
    let mixed : List Entry := [⟨.text "ann", .number .zero⟩, ⟨.boolean true, .nil⟩]
    let alike : List Entry := [⟨.text "ann", .number .zero⟩, ⟨.text "bob", one⟩]
    let constructed (es : List Entry) : Node :=
      .ofForm (.table (es.map fun e => (.ofForm e.key.literal, .ofForm e.value.literal)))
    let checked (es : List Entry) := (init true).check .builtin (constructed es)
    Table.withCapacity 16 = .ok Table.empty ∧
      (∀ e ∈ mixed, e.key.isNaN = false) ∧ (∀ e ∈ alike, e.key.isNaN = false) ∧
      (mixed.Pairwise fun e f => e.key.same f.key = false) ∧
      (checked mixed).2.diagnostics = [.mismatch "String" "Boolean", .mismatch "Number" "Nil"] ∧
      (∃ key value t, (checked mixed).1.ty = .table key value ∧
        Table.empty.fill mixed = .ok t ∧ t.conformsTo (.table key value) = false) ∧
      (checked alike).2.diagnostics = [] ∧ (checked alike).1.ty = .table .string .number ∧
      ∃ t, Table.empty.fill alike = .ok t ∧ t.conformsTo (.table .string .number) = true ∧
        t.get? (.text "bob") = some one ∧ Ty.number.compatible (.primitive one.kind) = true := by
  intro one mixed alike constructed checked
  have hfresh : Table.withCapacity 16 = .ok Table.empty := rfl
  have hmixedNaN : ∀ e ∈ mixed, e.key.isNaN = false := by decide
  have halikeNaN : ∀ e ∈ alike, e.key.isNaN = false := by decide
  have hdistinct : mixed.Pairwise fun e f => e.key.same f.key = false := by decide
  have hreports : (checked mixed).2.diagnostics =
      [.mismatch "String" "Boolean", .mismatch "Number" "Nil"] := by decide +kernel
  have hnone : (checked alike).2.diagnostics = [] := by decide +kernel
  have hty : (checked alike).1.ty = .table .string .number := rfl
  have hbob : (Table.empty.fill alike).toOption.bind (·.get? (.text "bob")) = some one := by
    decide +kernel
  refine ⟨hfresh, hmixedNaN, halikeNaN, hdistinct, hreports, ?_, hnone, hty, ?_⟩
  · obtain ⟨key, value, added, t, hfound, hadded, hfill, -, hiff⟩ :=
      check_table_conforms (init true) .builtin (constructed mixed) rfl rfl rfl hmixedNaN hfresh
    refine ⟨key, value, t, hfound, hfill, ?_⟩
    rw [Bool.eq_false_iff]
    intro hfits
    rw [(hiff hdistinct).1 hfits] at hadded
    exact absurd (hadded.symm.trans hreports) (by decide)
  · obtain ⟨key, value, added, t, hfound, hadded, hfill, hconforms, -⟩ :=
      check_table_conforms (init true) .builtin (constructed alike) rfl rfl rfl halikeNaN hfresh
    obtain ⟨rfl, rfl⟩ := Ty.table.inj (hfound.symm.trans hty)
    obtain ⟨hfits, hgiven⟩ := hconforms (hadded.symm.trans hnone)
    rw [hfill] at hbob
    exact ⟨t, hfill, hfits, hbob, hgiven _ _ hbob⟩

end Context

end GradualScript
