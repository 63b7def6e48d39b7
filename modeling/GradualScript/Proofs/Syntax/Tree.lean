import GradualScript.Syntax.Node

/-!
# Trees and their nodes

The children of a form in the order in which a check visits them (`Form.children`). In
that order `Node.visited` lists all nodes of a tree, each of them after its children and
so at the moment at which a check gives it its type. Statements about trees are proved by
induction on children (`Node.induction`).

A form can be given other children (`Form.withChildren`). In this way a tree loses the
types that are written on it (`Node.bare`) and the places of its nodes (`Node.unplaced`), and
one of its nodes is replaced (`Node.put`), which a path of positions among children leads to
(`Node.at?`).
-/

set_option autoImplicit false

namespace GradualScript

/-- The children of a form in the order of visits. A table constructor has all its keys
before its values. -/
def Form.children : Form → List Node
  | .number _ | .text _ | .boolean _ | .nil | .name _ => []
  | .binary _ left right => [left, right]
  | .unary _ operand => [operand]
  | .list items | .block items | .array items => items
  | .call callee arguments _ => [callee, arguments]
  | .group inner => [inner]
  | .statement expression => [expression]
  | .binding _ _ value => value.toList
  | .table pairs => pairs.map (·.1) ++ pairs.map (·.2)
  | .index target key => [target, key]

/-- The children of a form are smaller than it, so a recursion on trees may go on to them. -/
theorem Form.sizeOf_child_lt {form : Form} {child : Node} (h : child ∈ form.children) :
    sizeOf child < sizeOf form := by
  have hlist {items : List Node} (hmem : child ∈ items) : sizeOf child < sizeOf items :=
    List.sizeOf_lt_of_mem hmem
  cases form <;> simp only [children, List.mem_cons, List.not_mem_nil, or_false] at h
  case binary => rcases h with rfl | rfl <;> simp only [Form.binary.sizeOf_spec] <;> omega
  case unary => subst h; simp only [Form.unary.sizeOf_spec]; omega
  case list => have := hlist h; simp only [Form.list.sizeOf_spec]; omega
  case call => rcases h with rfl | rfl <;> simp only [Form.call.sizeOf_spec] <;> omega
  case group => subst h; simp only [Form.group.sizeOf_spec]; omega
  case statement => subst h; simp only [Form.statement.sizeOf_spec]; omega
  case block => have := hlist h; simp only [Form.block.sizeOf_spec]; omega
  case binding name declared value =>
    obtain rfl : value = some child := by simpa using h
    simp only [Form.binding.sizeOf_spec, Option.some.sizeOf_spec]
    omega
  case array => have := hlist h; simp only [Form.array.sizeOf_spec]; omega
  case table pairs =>
    have hpair {pair : Node × Node} (hmem : pair ∈ pairs) :
        sizeOf pair.1 + sizeOf pair.2 < sizeOf pairs := by
      have hlt := List.sizeOf_lt_of_mem hmem
      obtain ⟨key, value⟩ := pair
      simp only [Prod.mk.sizeOf_spec] at hlt ⊢
      omega
    simp only [Form.table.sizeOf_spec]
    rcases List.mem_append.1 h with h | h
    · obtain ⟨pair, hmem, rfl⟩ := List.mem_map.1 h
      have := hpair hmem
      omega
    · obtain ⟨pair, hmem, rfl⟩ := List.mem_map.1 h
      have := hpair hmem
      omega
  case index => rcases h with rfl | rfl <;> simp only [Form.index.sizeOf_spec] <;> omega

/-- A form with other children in place of its own, in the order of visits. There have to
be as many. -/
def Form.withChildren : Form → List Node → Form
  | .binary op _ _, [left, right] => .binary op left right
  | .unary op _, [operand] => .unary op operand
  | .list _, items => .list items
  | .call _ _ selfCall, [callee, arguments] => .call callee arguments selfCall
  | .group _, [inner] => .group inner
  | .statement _, [expression] => .statement expression
  | .block _, items => .block items
  | .binding bound declared (some _), [value] => .binding bound declared (some value)
  | .array _, items => .array items
  | .table pairs, nodes => .table ((nodes.take pairs.length).zip (nodes.drop pairs.length))
  | .index _ _, [target, key] => .index target key
  | form, _ => form

/-- A form that is given its own children stays as it is. -/
theorem Form.withChildren_children (form : Form) : form.withChildren form.children = form := by
  cases form with
  | binding bound declared value => cases value <;> rfl
  | table pairs =>
    have hkeys : (pairs.map (·.1) ++ pairs.map (·.2)).take pairs.length = pairs.map (·.1) :=
      List.take_left' (by simp)
    have hvalues : (pairs.map (·.1) ++ pairs.map (·.2)).drop pairs.length = pairs.map (·.2) :=
      List.drop_left' (by simp)
    rw [children, withChildren, hkeys, hvalues]
    exact congrArg table (List.zip_of_prod rfl rfl).symm
  | _ => rfl

/-- A form that is given as many children as it had has these. -/
theorem Form.children_withChildren (form : Form) {nodes : List Node}
    (h : nodes.length = form.children.length) : (form.withChildren nodes).children = nodes := by
  cases form with
  | list items => rfl
  | block items => rfl
  | array items => rfl
  | table pairs =>
    have hlength : nodes.length = pairs.length + pairs.length := by simpa [children] using h
    have hkeys : ((nodes.take pairs.length).zip (nodes.drop pairs.length)).map (·.1) =
        nodes.take pairs.length := List.map_fst_zip (by simp; omega)
    have hvalues : ((nodes.take pairs.length).zip (nodes.drop pairs.length)).map (·.2) =
        nodes.drop pairs.length := List.map_snd_zip (by simp; omega)
    rw [withChildren, children, hkeys, hvalues, List.take_append_drop]
  | binding bound declared value =>
    cases value with
    | none => exact (List.length_eq_zero_iff.1 h).symm
    | some value =>
      match nodes, h with
      | [_], _ => rfl
  | binary | call | index =>
    match nodes, h with
    | [_, _], _ => rfl
  | unary | group | statement =>
    match nodes, h with
    | [_], _ => rfl
  | _ => exact (List.length_eq_zero_iff.1 h).symm

/-- Of two exchanges of the children of a form only the second counts. -/
theorem Form.withChildren_withChildren (form : Form) {nodes others : List Node}
    (h : nodes.length = form.children.length) (h' : others.length = form.children.length) :
    (form.withChildren nodes).withChildren others = form.withChildren others := by
  cases form with
  | table pairs =>
    have hlength : nodes.length = pairs.length + pairs.length := by simpa [children] using h
    have hpairs : ((nodes.take pairs.length).zip (nodes.drop pairs.length)).length =
        pairs.length := by simp; omega
    rw [withChildren, withChildren, withChildren, hpairs]
  | binding bound declared value =>
    cases value with
    | none => rfl
    | some value =>
      match nodes, others, h, h' with
      | [_], [_], _, _ => rfl
  | binary | call | index =>
    match nodes, others, h, h' with
    | [_, _], [_, _], _, _ => rfl
  | unary | group | statement =>
    match nodes, others, h, h' with
    | [_], [_], _, _ => rfl
  | _ => rfl

def Form.isCall : Form → Bool
  | .call _ _ _ => true
  | _ => false

def Form.isList : Form → Bool
  | .list _ => true
  | _ => false

def Form.boundName? : Form → Option String
  | .binding bound _ _ => some bound
  | _ => none

/-- A list stays a list, whatever its children become, and nothing else becomes one. -/
theorem Form.isList_withChildren (form : Form) (nodes : List Node) :
    (form.withChildren nodes).isList = form.isList := by
  unfold withChildren
  split <;> rfl

/-- A call stays a call, whatever its children become, and nothing else becomes one. -/
theorem Form.isCall_withChildren (form : Form) (nodes : List Node) :
    (form.withChildren nodes).isCall = form.isCall := by
  unfold withChildren
  split <;> rfl

/-- A form binds the same name, whatever its children become. -/
theorem Form.boundName?_withChildren (form : Form) (nodes : List Node) :
    (form.withChildren nodes).boundName? = form.boundName? := by
  unfold withChildren
  split <;> rfl

namespace Node

/-- What holds of a node whenever it holds of its children, holds of all nodes. -/
theorem induction {P : Node → Prop}
    (step : ∀ (form : Form) (location : Location) (ty : Option Ty),
      (∀ child ∈ form.children, P child) → P ⟨form, location, ty⟩) (node : Node) : P node := by
  obtain ⟨form, location, ty⟩ := node
  exact step form location ty fun child _ => induction step child
termination_by sizeOf node
decreasing_by
  have := Form.sizeOf_child_lt ‹child ∈ form.children›
  simp
  omega

def visited (node : Node) : List Node :=
  (node.form.children.attach.flatMap fun child => child.1.visited) ++ [node]
termination_by sizeOf node
decreasing_by
  obtain ⟨form, location, ty⟩ := node
  have := Form.sizeOf_child_lt child.2
  simp at this ⊢
  omega

/-- The nodes of a tree are those of its children and then its root. -/
theorem visited_eq (node : Node) :
    node.visited = node.form.children.flatMap visited ++ [node] := by
  rw [visited, List.flatMap, List.flatMap, List.attach_map_val]

/-- What is collected from the nodes of a tree comes from its children and then from its
root. -/
theorem filterMap_visited {α : Type} (f : Node → Option α) (node : Node) :
    node.visited.filterMap f =
      (node.form.children.flatMap fun child => child.visited.filterMap f) ++ (f node).toList := by
  rw [visited_eq, List.filterMap_append, List.filterMap_flatMap]
  cases h : f node <;> simp [h]

/-! ## Names bound in a tree -/

def boundNames (node : Node) : List String := node.visited.filterMap (·.form.boundName?)

/-- The names that are bound in a tree are bound in its children or by its root. -/
theorem boundNames_eq (node : Node) :
    node.boundNames =
      node.form.children.flatMap boundNames ++ node.form.boundName?.toList :=
  filterMap_visited _ node

/-- A tree binds the names that its children bind, and then its own. -/
theorem boundNames_ofForm (form : Form) :
    (ofForm form).boundNames = form.children.flatMap boundNames ++ form.boundName?.toList :=
  boundNames_eq _

/-! ## Trees without types -/

def bare (node : Node) : Node :=
  ⟨node.form.withChildren (node.form.children.attach.map fun child => child.1.bare),
    node.location, none⟩
termination_by sizeOf node
decreasing_by
  obtain ⟨form, location, ty⟩ := node
  have := Form.sizeOf_child_lt child.2
  simp at this ⊢
  omega

/-- To take the types off a tree is to take them off its children, and to forget its own. -/
theorem bare_eq (node : Node) :
    node.bare = ⟨node.form.withChildren (node.form.children.map bare), node.location, none⟩ := by
  rw [bare, List.attach_map_val]

/-! ## Trees without places -/

/-- The tree with every node at the start of the text. -/
def unplaced (node : Node) : Node :=
  ⟨node.form.withChildren (node.form.children.attach.map fun child => child.1.unplaced),
    .start, node.ty⟩
termination_by sizeOf node
decreasing_by
  obtain ⟨form, location, ty⟩ := node
  have := Form.sizeOf_child_lt child.2
  simp at this ⊢
  omega

/-- To forget the places in a tree is to forget them in its children, and its own. -/
theorem unplaced_eq (node : Node) :
    node.unplaced =
      ⟨node.form.withChildren (node.form.children.map unplaced), .start, node.ty⟩ := by
  rw [unplaced, List.attach_map_val]

/-- What is left of a tree without types and places has neither at any node. -/
theorem unplaced_bare_eq (node : Node) :
    node.bare.unplaced =
      ⟨node.form.withChildren (node.form.children.map fun child => child.bare.unplaced),
        .start, none⟩ := by
  have hlength : (node.form.children.map bare).length = node.form.children.length := by simp
  rw [bare_eq, unplaced_eq]
  dsimp only
  rw [Form.children_withChildren _ hlength, List.map_map,
    Form.withChildren_withChildren _ hlength (by simp)]
  rfl

/-! ## Paths -/

/-- The node that a path leads to. Each step of a path is a position among children. -/
def at? : Node → List Nat → Option Node
  | node, [] => some node
  | node, i :: path => node.form.children[i]?.bind fun child => child.at? path

/-- A tree with another one in the place that a path leads to. -/
def put : Node → List Nat → Node → Node
  | _, [], new => new
  | node, i :: path, new =>
    { node with
      form := node.form.withChildren (node.form.children.modify i fun child => child.put path new) }

/-- Whether a path leads to the node that holds the arguments of a call. -/
def holdsArguments : Node → List Nat → Bool
  | _, [] => false
  | node, [i] => node.form.isCall && i == 1
  | node, i :: j :: path =>
    (node.form.children[i]?).any fun child => child.holdsArguments (j :: path)

end Node

end GradualScript
