import GradualScript.Proofs.Ty.Instances
import GradualScript.Proofs.Typing.Annotations

/-!
# The order of operands

Rules for binary operators do not tell the left operand from the right one
(`BinaryRule.result?_comm`), since types that accept each other do so in either order. So it makes
no difference to the types in a tree if some binary operations have their operands exchanged, nor to
how many diagnostics of each kind are reported (`Context.check_exchange`). What changes is the order
of visits, and with it the order of reports, as well as the texts of those that name both operands.
The tree must not bind names, because a later operand is checked with the names that an earlier one
has bound.

Which operations are exchanged is given by their paths. The tree `Node.exchange` exchanges all of
them at once, at every depth. The annotated tree then comes out exchanged in the same places, which
says that corresponding nodes have the same type.
-/

set_option autoImplicit false

namespace GradualScript

/-! ## Rules -/

/-- Of two types each accepts the other or neither does. -/
theorem Ty.accepts_comm (a b : Ty) : a.accepts b = b.accepts a := by
  rw [accepts, accepts, compatible_comm a b, Bool.or_comm a.isAny]

/-- A rule for two operands does not depend on their order. -/
theorem BinaryRule.result?_comm (rule : BinaryRule) (left right : Ty) :
    rule.result? left right = rule.result? right left := by
  cases rule with
  | uniform operand result => rw [result?, result?, Bool.and_comm]
  | alike result => rw [result?, result?, Ty.accepts_comm]

/-- What operators give for two operands does not depend on the order of these. -/
theorem Operators.binary?_comm (ops : Operators) (op : BinaryOp) (left right : Ty) :
    ops.binary? op left right = ops.binary? op right left := by
  rw [binary?, binary?]
  cases ops.binary op with
  | none => rfl
  | some rule => exact rule.result?_comm left right

/-! ## Exchanged operands -/

def Form.isBinary : Form → Bool
  | .binary _ _ _ => true
  | _ => false

def Form.exchanged : Form → Form
  | .binary op left right => .binary op right left
  | form => form

/-- A binary operation stays one, whatever its operands become, and nothing else becomes one. -/
theorem Form.isBinary_withChildren (form : Form) (nodes : List Node) :
    (form.withChildren nodes).isBinary = form.isBinary := by
  unfold withChildren
  split <;> rfl

/-- Only binary operations have operands to be exchanged. -/
theorem Form.exchanged_of_not_binary {form : Form} (h : form.isBinary = false) :
    form.exchanged = form := by
  cases form with
  | binary op left right => exact Bool.noConfusion h
  | _ => rfl

/-- To exchange operands makes no lists and leaves those that there are. -/
theorem Form.isList_exchanged (form : Form) : form.exchanged.isList = form.isList := by
  cases form <;> rfl

namespace Node

/-- The tree with the operands exchanged of all binary operations to which chosen paths lead. -/
def exchange (chosen : List Nat → Bool) (node : Node) : Node :=
  let form := node.form.withChildren (node.form.children.attach.mapIdx fun i child =>
    child.1.exchange fun path => chosen (i :: path))
  ⟨if chosen [] then form.exchanged else form, node.location, node.ty⟩
termination_by sizeOf node
decreasing_by
  obtain ⟨form, location, ty⟩ := node
  have := Form.sizeOf_child_lt child.2
  simp at this ⊢
  omega

/-- Trees in order, each with its own choice of operations. -/
def exchangeEach (choices : Nat → List Nat → Bool) (nodes : List Node) : List Node :=
  nodes.mapIdx fun i node => node.exchange (choices i)

/-- There are as many trees with operands exchanged as there were. -/
@[simp] theorem length_exchangeEach (choices : Nat → List Nat → Bool) (nodes : List Node) :
    (exchangeEach choices nodes).length = nodes.length :=
  List.length_mapIdx

/-- Where there are no trees there is nothing to exchange. -/
@[simp] theorem exchangeEach_nil (choices : Nat → List Nat → Bool) : exchangeEach choices [] = [] :=
  rfl

/-- Each tree goes by its own choice, and those after the first by the choices after the first. -/
theorem exchangeEach_cons (choices : Nat → List Nat → Bool) (node : Node) (rest : List Node) :
    exchangeEach choices (node :: rest) =
      node.exchange (choices 0) :: exchangeEach (fun i => choices (i + 1)) rest :=
  List.mapIdx_cons

/-- Each tree with operands exchanged comes from one of the trees. -/
theorem exists_of_mem_exchangeEach {choices : Nat → List Nat → Bool} {nodes : List Node}
    {node : Node} (h : node ∈ exchangeEach choices nodes) :
    ∃ original ∈ nodes, ∃ chosen, node = original.exchange chosen := by
  obtain ⟨i, hi, rfl⟩ := List.mem_mapIdx.1 h
  exact ⟨nodes[i], List.getElem_mem hi, choices i, rfl⟩

/-- What is the same for all trees with operands exchanged, is the same for several of them. -/
theorem map_exchangeEach {α : Type} {f : Node → α}
    (hf : ∀ chosen node, f (exchange chosen node) = f node) (choices : Nat → List Nat → Bool)
    (nodes : List Node) : (exchangeEach choices nodes).map f = nodes.map f := by
  induction nodes generalizing choices with
  | nil => rfl
  | cons node rest ih => rw [exchangeEach_cons, List.map_cons, List.map_cons, hf, ih]

/-- To exchange operands in a tree is to do so in its children, and at the tree itself if it is
chosen. -/
theorem exchange_eq (chosen : List Nat → Bool) (node : Node) :
    node.exchange chosen =
      let form := node.form.withChildren
        (exchangeEach (fun i path => chosen (i :: path)) node.form.children)
      ⟨if chosen [] then form.exchanged else form, node.location, node.ty⟩ := by
  have hchildren : (node.form.children.attach.mapIdx fun i child =>
      child.1.exchange fun path => chosen (i :: path)) =
        exchangeEach (fun i path => chosen (i :: path)) node.form.children :=
    List.ext_getElem (by simp) (by simp [exchangeEach])
  rw [exchange, hchildren]

/-- To exchange operands leaves the type that is written on a tree. -/
theorem written_exchange (chosen : List Nat → Bool) (node : Node) :
    (node.exchange chosen).written = node.written := by
  rw [exchange_eq]
  rfl

/-- A tree with operands exchanged is a list if it was one before. -/
theorem isList_exchange (chosen : List Nat → Bool) (node : Node) :
    (node.exchange chosen).form.isList = node.form.isList := by
  rw [exchange_eq]
  cases chosen []
  · exact Form.isList_withChildren _ _
  · exact (Form.isList_exchanged _).trans (Form.isList_withChildren _ _)

/-- The arguments that a node stands for have the same types with operands exchanged in them. -/
theorem argumentTys_exchange (chosen : List Nat → Bool) (node : Node) :
    (node.exchange chosen).argumentTys = node.argumentTys := by
  rw [argumentTys_eq, argumentTys_eq, isList_exchange, written_exchange]
  obtain ⟨form, location, ty⟩ := node
  cases form with
  | list items =>
    have hitems := map_exchangeEach written_exchange (fun i path => chosen (i :: path)) items
    rw [exchange_eq]
    cases chosen [] <;> exact hitems
  | _ => rfl

end Node

/-! ## The check of a tree with operands exchanged -/

/-- Whether two outcomes are the same up to a change of the result, the order of the reports, and
the texts of these. -/
structure Outcome.Mirrors {α β : Type} (f : α → β) (before : Outcome α) (after : Outcome β) :
    Prop where
  result_eq : after.result = f before.result
  scope_eq : after.scope = before.scope
  tally_eq : ∀ fault, tally after.reports fault = tally before.reports fault

/-- Outcomes that are the same up to two changes, one after the other, are the same up to both. -/
theorem Outcome.Mirrors.trans {α β γ : Type} {f : α → β} {g : β → γ} {before : Outcome α}
    {between : Outcome β} {after : Outcome γ} (h : before.Mirrors f between)
    (h' : between.Mirrors g after) : before.Mirrors (fun a => g (f a)) after :=
  ⟨by rw [h'.result_eq, h.result_eq], h'.scope_eq.trans h.scope_eq,
    fun fault => (h'.tally_eq fault).trans (h.tally_eq fault)⟩

namespace Checker

variable {c : Checker}

/-- Whether a tree can have operands exchanged in any places, and the check of it is mirrored. -/
def Mirrors (c : Checker) (node : Node) : Prop :=
  ∀ chosen s, ((c.check node).run s).Mirrors (Typed.map (Node.exchange chosen))
    ((c.check (node.exchange chosen)).run s)

/-- Trees whose checks are mirrored are so if they are checked in order. -/
theorem Mirrors.checkEach {items : List Node} (h : ∀ node ∈ items, c.Mirrors node)
    (choices : Nat → List Nat → Bool) (s : Scope) :
    let before := (c.checkEach items).run s
    let after := (c.checkEach (Node.exchangeEach choices items)).run s
    after.result.map (·.item) = Node.exchangeEach choices (before.result.map (·.item)) ∧
      after.scope = before.scope ∧
      ∀ fault, tally after.reports fault = tally before.reports fault := by
  induction items generalizing choices s with
  | nil => exact ⟨rfl, rfl, fun _ => rfl⟩
  | cons node rest ih =>
    rw [List.forall_mem_cons] at h
    obtain ⟨hresult, hscope, htally⟩ := h.1 (choices 0) s
    obtain ⟨hresults, hscopes, htallies⟩ :=
      ih h.2 (fun i => choices (i + 1)) ((c.check node).run s).scope
    simp only [Node.exchangeEach_cons, run_checkEach_cons, List.map_cons, hscope]
    refine ⟨?_, hscopes, fun fault => ?_⟩
    · rw [hresult, hresults]
      rfl
    · rw [tally_append, tally_append, htally, htallies]

/-- A form with operands exchanged below it implies the same type and has as much to report. -/
theorem Mirrors.infer {form : Form} (h : ∀ child ∈ form.children, c.Mirrors child)
    (choices : Nat → List Nat → Bool) (s : Scope) :
    ((c.infer form).run s).Mirrors
      (Typed.map fun form => form.withChildren (Node.exchangeEach choices form.children))
      ((c.infer (form.withChildren (Node.exchangeEach choices form.children))).run s) := by
  let plain := form.withChildren (Node.exchangeEach choices form.children)
  let before := (c.infer form).run s
  let after := (c.infer plain).run s
  have hlength : (Node.exchangeEach choices form.children).length = form.children.length := by simp
  have hchildren : before.result.item.children =
      ((c.checkEach form.children).run s).result.map (·.item) := c.children_infer form s
  obtain ⟨hitem, hty, hscope, hperm⟩ := c.infer_settles form s
  obtain ⟨hitem', hty', hscope', hperm'⟩ := c.infer_settles plain s
  obtain ⟨hitems, hends, htally⟩ := Mirrors.checkEach h choices s
  rw [Form.children_withChildren form hlength] at hitem' hty' hscope' hperm'
  -- The two checked forms differ in nothing but their children, which have the same types.
  have hmirrored : after.result.item = before.result.item.withChildren
      (Node.exchangeEach choices before.result.item.children) := by
    rw [hitem', hitems, Form.withChildren_withChildren form hlength (by simp), hchildren, hitem,
      Form.withChildren_withChildren form (by simp) (by simp)]
  have hwritten := Node.map_exchangeEach Node.written_exchange choices before.result.item.children
  have hargs := Node.map_exchangeEach Node.argumentTys_exchange choices before.result.item.children
  rw [hmirrored, hends] at hty' hscope' hperm'
  rw [Form.impliedTy_withChildren _ _ hwritten, ← hty] at hty'
  rw [Form.after_withChildren _ hwritten, ← hscope] at hscope'
  rw [Form.reports_withChildren _ _ hwritten hargs] at hperm'
  refine ⟨?_, hscope', fun fault => ?_⟩
  · rw [Typed.map, ← hmirrored, ← hty']
  · rw [tally, hperm'.countP_eq, tally, hperm.countP_eq]
    exact (tally_append fault _ _).trans ((congrArg (· + _) (htally fault)).trans
      (tally_append fault _ _).symm)

/-- A binary operation with its operands exchanged has the same type and breaks the same rule, if
the operands leave the scope as it is. -/
theorem infer_exchanged {form : Form}
    (h : ∀ child ∈ form.children, ∀ s, ((c.check child).run s).scope = s) (s : Scope) :
    ((c.infer form).run s).Mirrors (Typed.map Form.exchanged) ((c.infer form.exchanged).run s) := by
  cases hbinary : form.isBinary with
  | false =>
    have hitem : ((c.infer form).run s).result.item.isBinary = false := by
      rw [c.infer_same Form.isBinary_withChildren, hbinary]
    rw [Form.exchanged_of_not_binary hbinary]
    exact ⟨by rw [Typed.map, Form.exchanged_of_not_binary hitem], rfl, fun _ => rfl⟩
  | true =>
    cases form with
    | binary op left right =>
      have hleft := h left (by simp [Form.children])
      have hright := h right (by simp [Form.children])
      have hty := c.operators.binary?_comm op ((c.check right).run s).result.ty
        ((c.check left).run s).result.ty
      refine ⟨?_, ?_, fun fault => ?_⟩
      · simp [infer, Form.exchanged, hleft, hright, Typed.map, hty]
      · simp [infer, Form.exchanged, hleft, hright]
      · simp only [infer, Form.exchanged, Walk.run_bind, Walk.run_settle, Walk.run_pure,
          List.append_nil, tally_append, tally_ofBinary, hleft, hright, hty]
        omega
    | _ => exact Bool.noConfusion hbinary

/-- The check of a tree that binds no names is mirrored. -/
theorem mirrors (c : Checker) (node : Node) (hnone : node.boundNames = []) : c.Mirrors node := by
  induction node using Node.induction with
  | step form location ty ih =>
    intro chosen s
    rw [Node.boundNames_eq, List.append_eq_nil_iff, List.flatMap_eq_nil_iff] at hnone
    have hchildren : ∀ child ∈ form.children, c.Mirrors child := fun child hchild =>
      ih child hchild (hnone.1 child hchild)
    let choices := fun i path => chosen (i :: path)
    let plain := form.withChildren (Node.exchangeEach choices form.children)
    have hscopes : ∀ child ∈ plain.children, ∀ t, ((c.check child).run t).scope = t := by
      intro child hchild t
      rw [Form.children_withChildren form (Node.length_exchangeEach ..)] at hchild
      obtain ⟨original, horiginal, choice, rfl⟩ := Node.exists_of_mem_exchangeEach hchild
      rw [(hchildren original horiginal choice t).scope_eq]
      exact c.scope_check original (hnone.1 original horiginal) t
    have hplain := Mirrors.infer hchildren choices s
    have hform : ((c.infer form).run s).Mirrors
        (Typed.map fun form =>
          let form := form.withChildren (Node.exchangeEach choices form.children)
          if chosen [] then form.exchanged else form)
        ((c.infer (if chosen [] then plain.exchanged else plain)).run s) := by
      cases chosen [] with
      | false => exact hplain
      | true => exact hplain.trans (infer_exchanged hscopes s)
    obtain ⟨hresult, hscope, htally⟩ := hform
    rw [Node.exchange_eq, run_check, run_check]
    refine ⟨?_, hscope, htally⟩
    simp only [choices, plain] at hresult
    simp [hresult, Typed.map, Node.exchange_eq]

end Checker

namespace Context

/-- Every rule for binary operators gives the same result, or none, if the operands are exchanged.
In any context, with any operators and in any tree that binds no names, the operands of any binary
operations may be exchanged: the types of corresponding nodes are the same, and so are the names
bound and the number of diagnostics of each kind that the check adds. -/
theorem check_exchange (ctx : Context) (ops : Operators) :
    (∀ (rule : BinaryRule) (left right : Ty), rule.result? left right = rule.result? right left) ∧
    ∀ (tree : Node) (chosen : List Nat → Bool), tree.boundNames = [] →
      let before := ctx.check ops tree
      let after := ctx.check ops (tree.exchange chosen)
      after.1.ty = before.1.ty ∧ after.1.item = before.1.item.exchange chosen ∧
        after.2.scope = before.2.scope ∧
        ∃ added added', before.2.diagnostics = ctx.diagnostics ++ added ∧
          after.2.diagnostics = ctx.diagnostics ++ added' ∧
          ∀ fault, tally added' fault = tally added fault := by
  refine ⟨BinaryRule.result?_comm, fun tree chosen hnone => ?_⟩
  obtain ⟨hresult, hscope, htally⟩ := (ctx.checker ops).mirrors tree hnone chosen ctx.scope
  intro before after
  have hafter : after.1 = before.1.map (Node.exchange chosen) := by
    rw [result_check, result_check, hresult]
  refine ⟨by rw [hafter]; rfl, by rw [hafter]; rfl, ?_, _, _, diagnostics_check ctx ops tree,
    diagnostics_check ctx ops (tree.exchange chosen), htally⟩
  rw [scope_check, scope_check, hscope]

/-- All three operations in a comparison are exchanged, two of which break their rule. The reports
come in another order, and two of them have another text. -/
theorem check_exchange_comparison :
    let ctx := Context.init true
    let sum := Node.ofForm (.binary .add (.ofForm (.number .zero)) (.ofForm (.text "a")))
    let joined := Node.ofForm (.binary .concat (.ofForm (.name "x")) (.ofForm (.boolean true)))
    let tree := Node.ofForm (.binary .eq sum joined)
    let before := ctx.check .builtin tree
    let after := ctx.check .builtin (tree.exchange fun _ => true)
    tree.boundNames = [] ∧
      before.2.diagnostics = [.operator "+" "Number and String", .unresolved "x",
        .operator ".." "Any and Boolean"] ∧
      after.2.diagnostics = [.unresolved "x", .operator ".." "Boolean and Any",
        .operator "+" "String and Number"] ∧
      before.1.ty = .boolean ∧ after.1.ty = .boolean ∧
      after.1.item = before.1.item.exchange fun _ => true := by
  intro ctx sum joined tree before after
  have hnone : tree.boundNames = [] := by
    simp [tree, sum, joined, Node.boundNames_ofForm, Form.children, Form.boundName?]
  have hexchanged : tree.exchange (fun _ => true) =
      .ofForm (.binary .eq
        (.ofForm (.binary .concat (.ofForm (.boolean true)) (.ofForm (.name "x"))))
        (.ofForm (.binary .add (.ofForm (.text "a")) (.ofForm (.number .zero))))) := by
    simp [tree, sum, joined, Node.exchange_eq, Node.exchangeEach_cons, Node.ofForm, Form.children,
      Form.withChildren, Form.exchanged]
  obtain ⟨hty, hitem, -⟩ := (check_exchange ctx .builtin).2 tree (fun _ => true) hnone
  have hbefore : before.1.ty = .boolean := by decide +kernel
  refine ⟨hnone, by decide +kernel, ?_, hbefore, hty.trans hbefore, hitem⟩
  simp only [after, hexchanged]
  decide +kernel

end Context

end GradualScript
