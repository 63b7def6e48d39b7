import GradualScript.Proofs.Typing.Annotations

/-!
# Trees without groups

A group has the type of what it groups and adds nothing to it, and a call takes a list of one
argument for the argument itself. So a tree can be brought into a normal form that has no groups,
and lists as the arguments of all calls (`Node.normal`). A check of it comes to the same type, the
same reports in the same order and the same bindings, and to the same type of every node that is
left (`Context.check_normal`).

There is one exception. A call looks for a list where its arguments are, and not behind groups. So
a list in a group is a single argument of type `Nil`, while without the group it stands for its
items. Trees with such arguments are left out (`Node.hidesList`).

To say that nodes have the same types, the normal form is taken of the annotated tree as well. It
is what a check of the normal form annotates, up to the new lists, which have no type before.
-/

set_option autoImplicit false

namespace GradualScript

namespace Form

def isGroup : Form → Bool
  | .group _ => true
  | _ => false

/-- The node that holds the arguments of a call. -/
def arguments? : Form → Option Node
  | .call _ arguments _ => some arguments
  | _ => none

/-- What is known to be a group has a node inside. -/
theorem exists_of_isGroup {form : Form} (h : form.isGroup = true) :
    ∃ inner, form = .group inner := by
  cases form with
  | group inner => exact ⟨inner, rfl⟩
  | _ => exact Bool.noConfusion h

/-- A group stays a group, whatever its children become, and nothing else becomes one. -/
theorem isGroup_withChildren (form : Form) (nodes : List Node) :
    (form.withChildren nodes).isGroup = form.isGroup := by
  unfold withChildren
  split <;> rfl

end Form

namespace Node

/-- What is left of a node without the groups around it. -/
def ungrouped : Node → Node
  | ⟨.group inner, _, _⟩ => inner.ungrouped
  | node => node

/-- A node that is no group has no groups around it to be taken away. -/
theorem ungrouped_of_not_group {node : Node} (h : node.form.isGroup = false) :
    node.ungrouped = node := by
  obtain ⟨form, location, ty⟩ := node
  cases form with
  | group inner => exact Bool.noConfusion h
  | _ => rfl

/-- Whether a node is no list, but one without its groups. -/
def hidesList (node : Node) : Bool := !node.form.isList && node.ungrouped.form.isList

/-- A node as the arguments of a call. Other nodes than lists become the only item of a list. -/
def listed (listTy : Option Ty) (node : Node) : Node :=
  if node.form.isList then node else ⟨.list [node], node.location, listTy⟩

/-- A list of arguments stays as it is. -/
theorem listed_list (listTy : Option Ty) (items : List Node) (location : Location)
    (ty : Option Ty) : listed listTy ⟨.list items, location, ty⟩ = ⟨.list items, location, ty⟩ :=
  rfl

/-- An argument by itself becomes the only item of a list. -/
theorem listed_of_not_list {node : Node} {listTy : Option Ty} (h : node.form.isList = false) :
    node.listed listTy = ⟨.list [node], node.location, listTy⟩ := by
  rw [listed, h]
  rfl

/-- The arguments of a call are in a list afterwards. -/
theorem isList_listed (listTy : Option Ty) (node : Node) :
    (node.listed listTy).form.isList = true := by
  cases hlist : node.form.isList with
  | true => rwa [listed, hlist]
  | false =>
    rw [listed_of_not_list hlist]
    rfl

end Node

/-- A form with the arguments in a list if it is a call. New lists bear a given type. -/
def Form.listArguments (listTy : Option Ty) : Form → Form
  | .call callee arguments selfCall => .call callee (arguments.listed listTy) selfCall
  | form => form

/-- Only calls have arguments to be put in a list. -/
theorem Form.listArguments_of_not_call {form : Form} (h : form.isCall = false)
    (listTy : Option Ty) : form.listArguments listTy = form := by
  cases form with
  | call callee arguments selfCall => exact Bool.noConfusion h
  | _ => rfl

/-- A form that is no call has no arguments to be put in a list, whatever its children become. -/
theorem Form.listArguments_mapChildren {form : Form} (h : form.isCall = false) (f : Node → Node)
    (listTy : Option Ty) : (form.mapChildren f).listArguments listTy = form.mapChildren f :=
  Form.listArguments_of_not_call ((Form.isCall_withChildren form _).trans h) listTy

/-- To put the arguments of a call in a list makes no list of the call. -/
theorem Form.isList_listArguments (listTy : Option Ty) (form : Form) :
    (form.listArguments listTy).isList = form.isList := by
  cases form <;> rfl

/-- Whether a form is no group, and no call unless its arguments are in a list. -/
def Form.IsNormal (form : Form) : Prop :=
  form.isGroup = false ∧ ∀ arguments ∈ form.arguments?, arguments.form.isList = true

/-- A form that is no group is normal once its arguments are in a list. -/
theorem Form.isNormal_listArguments (listTy : Option Ty) {form : Form} (h : form.isGroup = false) :
    (form.listArguments listTy).IsNormal := by
  cases form with
  | call callee arguments selfCall =>
    refine ⟨rfl, fun listed hlisted => ?_⟩
    obtain rfl := Option.mem_some.1 hlisted
    exact arguments.isList_listed listTy
  | _ => exact ⟨h, by simp [listArguments, arguments?]⟩

namespace Node

/-- The tree without groups, and with the arguments of every call in a list. New lists bear a given
type. -/
def normal (listTy : Option Ty) (node : Node) : Node :=
  match node with
  | ⟨.group inner, _, _⟩ => inner.normal listTy
  | ⟨form, location, ty⟩ =>
    ⟨(form.withChildren (form.children.attach.map fun child =>
      child.1.normal listTy)).listArguments listTy, location, ty⟩
termination_by sizeOf node
decreasing_by
  · simp
    omega
  · have := Form.sizeOf_child_lt child.2
    simp at this ⊢
    omega

variable (listTy : Option Ty)

/-- The normal form of a group is that of the node inside. -/
theorem normal_group (inner : Node) (location : Location) (ty : Option Ty) :
    normal listTy ⟨.group inner, location, ty⟩ = inner.normal listTy := by
  rw [normal]

/-- The normal form of any other node has normal children, and the arguments in a list. -/
theorem normal_of_not_group {node : Node} (h : node.form.isGroup = false) :
    node.normal listTy = ⟨(node.form.mapChildren (normal listTy)).listArguments listTy,
      node.location, node.ty⟩ := by
  obtain ⟨form, location, ty⟩ := node
  rw [normal, List.attach_map_val]
  · rfl
  · rintro inner rfl
    exact Bool.noConfusion h

/-- The normal form of a list is a list of normal forms. -/
theorem normal_list (items : List Node) (location : Location) (ty : Option Ty) :
    normal listTy ⟨.list items, location, ty⟩ =
      ⟨.list (items.map (normal listTy)), location, ty⟩ :=
  normal_of_not_group listTy rfl

/-- The normal form of a node is a list if the node is one behind its groups. -/
theorem isList_normal (node : Node) :
    (node.normal listTy).form.isList = node.ungrouped.form.isList := by
  induction node using Node.induction with
  | step form location ty ih =>
    cases hgroup : form.isGroup with
    | true =>
      obtain ⟨inner, rfl⟩ := Form.exists_of_isGroup hgroup
      rw [normal_group, ih inner (by simp [Form.children]), ungrouped]
    | false =>
      rw [normal_of_not_group listTy hgroup, ungrouped_of_not_group hgroup]
      exact (Form.isList_listArguments listTy _).trans (Form.isList_withChildren form _)

/-- The nodes of arguments that are put in a list are those of the arguments, and the list, which
is normal. -/
theorem mem_visited_listed {node n : Node} (h : n ∈ (node.listed listTy).visited) :
    n ∈ node.visited ∨ n.form.IsNormal := by
  cases hlist : node.form.isList with
  | true =>
    rw [listed, hlist] at h
    exact .inl h
  | false =>
    rw [listed_of_not_list hlist, visited_eq] at h
    simp only [Form.children, List.flatMap_cons, List.flatMap_nil, List.append_nil,
      List.mem_append, List.mem_singleton] at h
    rcases h with h | rfl
    · exact .inl h
    · exact .inr ⟨rfl, by simp [Form.arguments?]⟩

/-- Below a form with its arguments in a list there are the same nodes, and possibly this list. -/
theorem mem_visited_listArguments {form : Form} {n : Node}
    (h : n ∈ (form.listArguments listTy).children.flatMap visited) :
    n ∈ form.children.flatMap visited ∨ n.form.IsNormal := by
  cases form with
  | call callee arguments selfCall =>
    simp only [Form.listArguments, Form.children, List.flatMap_cons, List.flatMap_nil,
      List.append_nil, List.mem_append] at h ⊢
    rcases h with h | h
    · exact .inl (.inl h)
    · exact (mem_visited_listed listTy h).imp_left .inr
  | _ => exact .inl h

/-- All nodes of a normal form are in normal form. -/
theorem isNormal_normal (node : Node) : ∀ n ∈ (node.normal listTy).visited, n.form.IsNormal := by
  induction node using Node.induction with
  | step form location ty ih =>
    cases hgroup : form.isGroup with
    | true =>
      obtain ⟨inner, rfl⟩ := Form.exists_of_isGroup hgroup
      rw [normal_group]
      exact ih inner (by simp [Form.children])
    | false =>
      have hroot : ((form.mapChildren (normal listTy)).listArguments listTy).IsNormal :=
        Form.isNormal_listArguments listTy ((Form.isGroup_withChildren form _).trans hgroup)
      rw [normal_of_not_group listTy hgroup, visited_eq]
      refine List.forall_mem_append.2 ⟨fun n hn => ?_, List.forall_mem_singleton.2 hroot⟩
      rcases mem_visited_listArguments listTy hn with hn | hn
      · rw [Form.mapChildren, Form.children_withChildren form (List.length_map _)] at hn
        obtain ⟨other, hother, hn⟩ := List.mem_flatMap.1 hn
        obtain ⟨child, hchild, rfl⟩ := List.mem_map.1 hother
        exact ih child hchild n hn
      · exact hn

end Node

namespace Checker

variable {c : Checker}

/-- Whether a check of a node comes to the same in normal form, also where the node holds the
arguments of a call. -/
structure Normalizes (c : Checker) (node : Node) : Prop where
  check : c.Commutes (Node.normal none) (Node.normal (some .nil)) node
  arguments : node.hidesList = false → ∀ s,
    (c.checkArguments ((node.normal none).listed none)).run s =
      ((c.checkArguments node).run s).map fun checked =>
        ((checked.1.normal (some .nil)).listed (some .nil), checked.2)

/-- A list of one node comes to the same as arguments as the node. -/
theorem run_checkArguments_singleton (node : Node) (location : Location) (ty : Option Ty)
    (s : Scope) :
    (c.checkArguments ⟨.list [node], location, ty⟩).run s =
      let checked := (c.check node).run s
      ⟨(⟨.list [checked.result.item], location, some .nil⟩, [checked.result.ty]), checked.scope,
        checked.reports⟩ := by
  simp [checkArguments, checkEach]

/-- A check makes no lists and leaves those that there are. -/
theorem isList_check (node : Node) (s : Scope) :
    ((c.check node).run s).result.item.form.isList = node.form.isList := by
  obtain ⟨form, location, ty⟩ := node
  rw [run_check]
  exact c.infer_same Form.isList_withChildren form s

/-- A check leaves a node at its place. -/
theorem location_check (node : Node) (s : Scope) :
    ((c.check node).run s).result.item.location = node.location := by
  obtain ⟨form, location, ty⟩ := node
  rw [run_check]

/-- A form whose children and arguments come to the same in normal form does so itself. -/
theorem infer_normal (form : Form) (h : ∀ child ∈ form.children, c.Normalizes child)
    (hargs : ∀ arguments ∈ form.arguments?, arguments.hidesList = false) (s : Scope) :
    (c.infer ((form.mapChildren (Node.normal none)).listArguments none)).run s =
      ((c.infer form).run s).map (Typed.map fun form =>
        (form.mapChildren (Node.normal (some .nil))).listArguments (some .nil)) := by
  cases hcall : form.isCall with
  | false =>
    have hitem : ((c.infer form).run s).result.item.isCall = false := by
      rw [c.infer_same Form.isCall_withChildren, hcall]
    have hinfer := Commutes.infer form (fun child hchild => (h child hchild).check)
      (fun htrue => absurd htrue (by simp [hcall])) s
    rw [Form.listArguments_mapChildren hcall, hinfer]
    simp only [Outcome.map, Typed.map, Form.listArguments_mapChildren hitem]
  | true =>
    cases form with
    | call callee arguments selfCall =>
      have hcallee := (h callee (by simp [Form.children])).check s
      have harguments := (h arguments (by simp [Form.children])).arguments (hargs arguments rfl)
      simp [infer, Form.mapChildren, Form.children, Form.withChildren, Form.listArguments,
        hcallee, harguments, Outcome.map, Typed.map]
    | _ => exact Bool.noConfusion hcall

/-- Arguments come to the same in normal form if they do as a node, and a list does if its items
do. -/
theorem checkArguments_normal {node : Node}
    (h : c.Commutes (Node.normal none) (Node.normal (some .nil)) node)
    (hchildren : ∀ child ∈ node.form.children, c.Normalizes child)
    (hshown : node.hidesList = false) (s : Scope) :
    (c.checkArguments ((node.normal none).listed none)).run s =
      ((c.checkArguments node).run s).map fun checked =>
        ((checked.1.normal (some .nil)).listed (some .nil), checked.2) := by
  cases hlist : node.form.isList with
  | true =>
    obtain ⟨form, location, ty⟩ := node
    cases form with
    | list items =>
      have hitems : ∀ item ∈ items, c.Commutes (Node.normal none) (Node.normal (some .nil)) item :=
        fun item hitem => (hchildren item hitem).check
      simp [checkArguments, Node.normal_list, Node.listed_list, Commutes.checkEach hitems,
        Outcome.map, Typed.map]
    | _ => exact Bool.noConfusion hlist
  | false =>
    have hnormal : (node.normal none).form.isList = false := by
      rw [Node.isList_normal]
      simpa [Node.hidesList, hlist] using hshown
    have hcheck := h s
    -- What is annotated in normal form is no list either, and stands where it stood.
    have hitem : (((c.check node).run s).result.item.normal (some .nil)).form.isList = false := by
      have := c.isList_check (node.normal none) s
      rw [hcheck] at this
      exact this.trans hnormal
    have hlocation : (((c.check node).run s).result.item.normal (some .nil)).location =
        (node.normal none).location := by
      have := c.location_check (node.normal none) s
      rwa [hcheck] at this
    rw [Node.listed_of_not_list hnormal, run_checkArguments_singleton, run_checkArguments, hcheck]
    simp [Outcome.map, Typed.map, Node.listed_of_not_list hitem, Node.argumentTys_eq,
      isList_check, hlist, hlocation]

/-- A node whose children come to the same in normal form does so itself. -/
theorem commutes_normal {form : Form} (location : Location) (ty : Option Ty)
    (h : ∀ child ∈ form.children, c.Normalizes child)
    (hargs : ∀ arguments ∈ form.arguments?, arguments.hidesList = false) :
    c.Commutes (Node.normal none) (Node.normal (some .nil)) ⟨form, location, ty⟩ := by
  intro s
  cases hgroup : form.isGroup with
  | true =>
    obtain ⟨inner, rfl⟩ := Form.exists_of_isGroup hgroup
    have hinner := (h inner (by simp [Form.children])).check s
    rw [Node.normal_group, hinner, run_check]
    simp [infer, Outcome.map, Typed.map, Node.normal_group]
  | false =>
    have hitem : ((c.infer form).run s).result.item.isGroup = false := by
      rw [c.infer_same Form.isGroup_withChildren, hgroup]
    rw [Node.normal_of_not_group none hgroup, run_check, run_check]
    dsimp only
    rw [infer_normal form h hargs s]
    simp [Outcome.map, Typed.map, Node.normal_of_not_group, hitem]

/-- A check of a tree comes to the same in normal form, unless the arguments of a call hide a
list. -/
theorem normalizes (c : Checker) (node : Node)
    (hargs : ∀ n ∈ node.visited, ∀ arguments ∈ n.form.arguments?, arguments.hidesList = false) :
    c.Normalizes node := by
  induction node using Node.induction with
  | step form location ty ih =>
    rw [Node.visited_eq, List.forall_mem_append, List.forall_mem_singleton] at hargs
    obtain ⟨hbelow, hown⟩ := hargs
    have hchildren : ∀ child ∈ form.children, c.Normalizes child := fun child hchild =>
      ih child hchild fun n hn => hbelow n (List.mem_flatMap_of_mem hchild hn)
    have hcheck := commutes_normal location ty hchildren hown
    exact ⟨hcheck, checkArguments_normal hcheck hchildren⟩

end Checker

namespace Context

/-- The normal form of any tree has no groups, and lists as the arguments of all calls. Take any
context, any operators and any tree in which the arguments of no call become a list when the groups
around them are removed, unless they are a list before. A check of the normal form gives the same
type and leaves the same context as a check of the tree: the same diagnostics in the same order, and
the same bindings. Every node that is left has the same type, and new lists have the type `Nil`. -/
theorem check_normal (ctx : Context) (ops : Operators) (tree : Node) :
    (∀ n ∈ (tree.normal none).visited, n.form.IsNormal) ∧
    ((∀ n ∈ tree.visited, ∀ arguments ∈ n.form.arguments?, arguments.hidesList = false) →
      let before := ctx.check ops tree
      let after := ctx.check ops (tree.normal none)
      after.1.ty = before.1.ty ∧ after.1.item = before.1.item.normal (some .nil) ∧
        after.2 = before.2) := by
  refine ⟨tree.isNormal_normal none, fun hargs => ?_⟩
  have hcheck := ((ctx.checker ops).normalizes tree hargs).check ctx.scope
  intro before after
  have hafter : after.1 = before.1.map (Node.normal (some .nil)) := by
    rw [result_check, result_check, hcheck]
    rfl
  refine ⟨by rw [hafter]; rfl, by rw [hafter]; rfl, ?_⟩
  simp only [after, before, check_eq, hcheck, Outcome.map]

/-- A function that is called, its only argument and the value of a variable stand in groups, the
argument in two. -/
theorem check_normal_scream :
    let group (inner : Node) := Node.ofForm (.group inner)
    let ctx : Context := ⟨true, ⟨[("scream", .function [.string] .number)]⟩, [], 0⟩
    let name := Node.ofForm (.name "scream")
    let argument := Node.ofForm (.name "x")
    let tree := Node.ofForm (.binding "n" (some .string)
      (some (group (.ofForm (.call (group name) (group (group argument)) false)))))
    let before := ctx.check .builtin tree
    let after := ctx.check .builtin (tree.normal none)
    tree.normal none = .ofForm (.binding "n" (some .string) (some (.call name [argument] false))) ∧
      before.2.diagnostics = [.unresolved "x", .mismatch "String" "Number"] ∧
      after.1.item = before.1.item.normal (some .nil) ∧ after.2 = before.2 := by
  intro group ctx name argument tree before after
  have hnormal : tree.normal none =
      .ofForm (.binding "n" (some .string) (some (.call name [argument] false))) := by
    simp [tree, group, argument, name, Node.call, Node.ofForm, Node.normal, Form.children,
      Form.withChildren, Form.listArguments, Node.listed, Form.isList]
  have hargs : ∀ n ∈ tree.visited, ∀ arguments ∈ n.form.arguments?,
      arguments.hidesList = false := by
    simp [tree, group, argument, name, Node.ofForm, Node.visited_eq, Form.children,
      Form.arguments?, Node.hidesList, Node.ungrouped, Form.isList]
  obtain ⟨-, hitem, hafter⟩ := (check_normal ctx .builtin tree).2 hargs
  exact ⟨hnormal, by decide +kernel, hitem, hafter⟩

/-- A function of two arguments is called with a list of two that stands in a group. This is one
argument, and of type `Nil`. -/
example :
    let ctx : Context := ⟨false, ⟨[("sum", .function [.number, .number] .number)]⟩, [], 0⟩
    let zero := Node.ofForm (.number .zero)
    let zeros := Node.ofForm (.list [zero, zero])
    let call (arguments : Node) := Node.ofForm (.call (.ofForm (.name "sum")) arguments false)
    (ctx.check .builtin (call (.ofForm (.group zeros)))).2.diagnostics =
        [.arity 2 1, .mismatch "Number" "Nil"] ∧
      (ctx.check .builtin (call zeros)).2.diagnostics = [] := by
  decide +kernel

end Context

end GradualScript
