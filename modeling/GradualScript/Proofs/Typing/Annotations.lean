import GradualScript.Proofs.Typing.Audit

/-!
# What a check writes and what it looks at

A check writes a type on every node of a tree and changes nothing else. It looks neither at the
types that were written there before nor at the places of the nodes.

The second part compares the check of a tree with the check of a changed tree. A change `f` of
trees commutes with a check up to a change `g` of annotated trees (`Checker.Commutes`) if both
checks find the same types, report the same in the same order and lead to the same scopes. A
check looks at the children of a form only through their own checks, so a form with changed
children commutes if they do (`Checker.Commutes.infer`). Taking off all types and places is such
a change (`Checker.commutes_bare`), and `g` then takes off the places, while the types stay.
-/

set_option autoImplicit false

namespace GradualScript

/-- The same type with something else. -/
def Typed.map {α β : Type} (f : α → β) (typed : Typed α) : Typed β := ⟨f typed.item, typed.ty⟩

/-- The same outcome with another result. -/
def Outcome.map {α β : Type} (f : α → β) (outcome : Outcome α) : Outcome β :=
  ⟨f outcome.result, outcome.scope, outcome.reports⟩

/-- A change of the items leaves the type of the first one. -/
@[simp] theorem Typed.headTy_map {α β : Type} (f : α → β) (typed : List (Typed α)) :
    Typed.headTy (typed.map (Typed.map f)) = Typed.headTy typed := by
  cases typed <;> rfl

/-- The items of what has been changed are the changed items. -/
theorem Typed.map_item_map {α β : Type} (f : α → β) (typed : List (Typed α)) :
    (typed.map (Typed.map f)).map (·.item) = (typed.map (·.item)).map f := by
  simp [Typed.map]

/-- A form with its children changed. -/
def Form.mapChildren (f : Node → Node) (form : Form) : Form :=
  form.withChildren (form.children.map f)

/-- To change the children of a table constructor is to change the two sides of each pair. -/
theorem Form.mapChildren_table (f : Node → Node) (pairs : List (Node × Node)) :
    (Form.table pairs).mapChildren f = .table (pairs.map fun pair => (f pair.1, f pair.2)) := by
  have hkeys : ((pairs.map (·.1)).map f).length = pairs.length := by simp
  rw [mapChildren, children, withChildren, List.map_append, List.take_left' hkeys,
    List.drop_left' hkeys, List.map_map, List.map_map, List.zip_map']
  rfl

namespace Checker

variable {c : Checker} {f g : Node → Node}

/-- Whether the check of a changed tree comes to what the check of the tree comes to, with the
annotated tree changed. -/
def Commutes (c : Checker) (f g : Node → Node) (node : Node) : Prop :=
  ∀ s, (c.check (f node)).run s = ((c.check node).run s).map (Typed.map g)

namespace Commutes

/-- A check of a list of trees commutes with a change if the check of each does. -/
theorem checkEach {items : List Node} (h : ∀ node ∈ items, c.Commutes f g node) (s : Scope) :
    (c.checkEach (items.map f)).run s =
      ((c.checkEach items).run s).map (List.map (Typed.map g)) := by
  induction items generalizing s with
  | nil => rfl
  | cons node rest ih =>
    rw [List.forall_mem_cons] at h
    rw [List.map_cons, run_checkEach_cons, run_checkEach_cons, h.1 s]
    simp only [Outcome.map, ih h.2, List.map_cons]

/-- A check of the items of a constructor commutes with a change if the check of each does. -/
theorem checkAlike {items : List Node} (h : ∀ node ∈ items, c.Commutes f g node)
    (expected : Option Ty) (s : Scope) :
    (c.checkAlike expected (items.map f)).run s =
      ((c.checkAlike expected items).run s).map (List.map (Typed.map g)) := by
  induction items generalizing expected s with
  | nil => rfl
  | cons node rest ih =>
    rw [List.forall_mem_cons] at h
    simp [Checker.checkAlike, h.1 s, ih h.2, Outcome.map, Typed.map]

/-- The arguments of a call commute if the change does not affect their types. -/
theorem checkArguments {node : Node} (h : c.Commutes f g node)
    (hargs : ∀ node : Node, (g node).argumentTys = node.argumentTys) (s : Scope) :
    (c.checkArguments (f node)).run s =
      ((c.checkArguments node).run s).map fun checked => (g checked.1, checked.2) := by
  rw [run_checkArguments, run_checkArguments, h s]
  simp [Outcome.map, Typed.map, hargs]

/-- A form with changed children commutes if they do, and if the arguments of a call have the same
types. -/
theorem infer (form : Form) (h : ∀ child ∈ form.children, c.Commutes f g child)
    (hargs : form.isCall = true → ∀ node : Node, (g node).argumentTys = node.argumentTys)
    (s : Scope) :
    (c.infer (form.mapChildren f)).run s =
      ((c.infer form).run s).map (Typed.map (Form.mapChildren g)) := by
  cases form with
  | number | text | boolean | nil => rfl
  | name x =>
    simp [Checker.infer, run_lookupName, Form.mapChildren, Form.withChildren, Outcome.map,
      Typed.map]
  | binary op left right | index left right =>
    have hleft := h left (by simp [Form.children])
    have hright := h right (by simp [Form.children])
    simp [Checker.infer, Form.mapChildren, Form.children, Form.withChildren, hleft s, hright _,
      Outcome.map, Typed.map]
  | unary op inner | group inner | statement inner =>
    have hinner := h inner (by simp [Form.children])
    simp [Checker.infer, Form.mapChildren, Form.children, Form.withChildren, hinner s,
      Outcome.map, Typed.map]
  | list items | block items =>
    have hitems : ∀ node ∈ items, c.Commutes f g node := h
    simp [Checker.infer, Form.mapChildren, Form.children, Form.withChildren, checkEach hitems s,
      Outcome.map, Typed.map]
  | call callee arguments selfCall =>
    have hcallee := h callee (by simp [Form.children])
    have harguments := (h arguments (by simp [Form.children])).checkArguments (hargs rfl)
    simp [Checker.infer, Form.mapChildren, Form.children, Form.withChildren, hcallee s,
      harguments _, Outcome.map, Typed.map]
  | binding x declared value =>
    cases value with
    | none =>
      simp [Checker.infer, run_bindName, Form.mapChildren, Form.withChildren, Outcome.map,
        Typed.map]
    | some value =>
      have hvalue := h value (by simp [Form.children])
      simp [Checker.infer, run_bindName, Form.mapChildren, Form.children, Form.withChildren,
        hvalue s, Outcome.map, Typed.map]
  | array items =>
    have hitems : ∀ node ∈ items, c.Commutes f g node := h
    simp [Checker.infer, Form.mapChildren, Form.children, Form.withChildren,
      checkAlike hitems none s, Outcome.map, Typed.map]
  | table pairs =>
    simp only [Form.children, List.forall_mem_append] at h
    have hkeys : (pairs.map fun pair => (f pair.1, f pair.2)).map (·.1) =
        (pairs.map (·.1)).map f := by simp
    have hvalues : (pairs.map fun pair => (f pair.1, f pair.2)).map (·.2) =
        (pairs.map (·.2)).map f := by simp
    have hzip (keys values : List (Typed Node)) :
        ((keys.map (Typed.map g)).map (·.item)).zip ((values.map (Typed.map g)).map (·.item)) =
          ((keys.map (·.item)).zip (values.map (·.item))).map fun pair => (g pair.1, g pair.2) := by
      rw [Typed.map_item_map, Typed.map_item_map, List.zip_map]
      rfl
    rw [Form.mapChildren_table, run_infer_table, run_infer_table]
    simp only [hkeys, hvalues, checkEach h.1, checkEach h.2, checkAlike h.1, checkAlike h.2,
      Outcome.map, Typed.map, Form.mapChildren_table, Typed.headTy_map, hzip]

end Commutes

/-! ## Trees without types and places -/

/-- The arguments that a node stands for have the same types without their places. -/
theorem argumentTys_unplaced (node : Node) : node.unplaced.argumentTys = node.argumentTys := by
  have hwritten : Node.written ∘ Node.unplaced = Node.written := by
    funext n
    rw [Function.comp_apply, Node.unplaced_eq]
    rfl
  have hlength : (node.form.children.map Node.unplaced).length = node.form.children.length := by
    simp
  rw [Node.argumentTys_eq, Node.argumentTys_eq, Node.unplaced_eq]
  dsimp only
  rw [Form.isList_withChildren, Form.children_withChildren _ hlength, List.map_map, hwritten]
  rfl

/-- A check overlooks the types and places in a tree: without them it comes to the same types,
bindings and reports. -/
theorem commutes_bare (c : Checker) (node : Node) :
    c.Commutes (fun n => n.bare.unplaced) Node.unplaced node := by
  induction node using Node.induction with
  | step form location ty ih =>
    intro s
    have hinfer := Commutes.infer form ih (fun _ => argumentTys_unplaced) s
    rw [Form.mapChildren] at hinfer
    dsimp only
    rw [Node.unplaced_bare_eq, run_check, run_check, hinfer]
    simp [Outcome.map, Typed.map, Form.mapChildren, Node.unplaced_eq]

end Checker

namespace Context

/-- After a check in any context, with any operators and of any tree, there is a type on every
node at any depth, at the root the one that the check has found. Apart from types the tree is
what it was, places included. Without the types that were written on it before, and with all
nodes at the start of the text, the check finds the same type, writes the same types on
corresponding nodes, and leaves the same context: the same diagnostics and the same bindings. -/
theorem check_annotates (ctx : Context) (ops : Operators) (tree : Node) :
    let after := ctx.check ops tree
    let again := ctx.check ops tree.bare.unplaced
    (∀ n ∈ after.1.item.visited, n.ty.isSome = true) ∧ after.1.item.ty = some after.1.ty ∧
      after.1.item.bare = tree.bare ∧ again.1.ty = after.1.ty ∧
      again.1.item = after.1.item.unplaced ∧ again.2 = after.2 := by
  intro after again
  have hcommutes := (ctx.checker ops).commutes_bare tree ctx.scope
  obtain ⟨-, htyped, -⟩ := (ctx.checker ops).audits tree ctx.scope
  have hagain : again.1 = after.1.map Node.unplaced := by
    rw [result_check, result_check, hcommutes]
    rfl
  refine ⟨fun n hn => ?_, ?_, ?_, by rw [hagain]; rfl, by rw [hagain]; rfl, ?_⟩
  · rw [result_check] at hn
    rw [← map_node_visits ctx.scope (Node.visited _)] at hn
    obtain ⟨v, hv, rfl⟩ := List.mem_map.1 hn
    rw [htyped v hv]
    rfl
  · rw [result_check]
    exact (ctx.checker ops).check_writes tree ctx.scope
  · rw [result_check]
    exact (ctx.checker ops).bare_check tree ctx.scope
  · simp only [again, after, check_eq, hcommutes, Outcome.map]

end Context

end GradualScript
