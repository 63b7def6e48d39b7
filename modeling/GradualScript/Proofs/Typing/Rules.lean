import GradualScript.Proofs.Syntax.Tree
import GradualScript.Proofs.Ty.Fading
import GradualScript.Typing.Context
import Mathlib.Data.List.Basic

/-!
# What the types of children imply

Once the children of a form bear their types, these and the scope say all that a check
has still to say about the form: its type (`Form.impliedTy`), what there is to report at
it (`Form.reports`), and the scope after it (`Scope.after`). No more than the types that
are written on the children counts, with one exception: the arguments of a call are the
items of a list, or else the node itself (`Node.argumentTys`).
-/

set_option autoImplicit false

namespace GradualScript

namespace Node

/-- The type written on a node. Nothing is known of a node without one. -/
def written (node : Node) : Ty := node.ty.getD .any

/-- The types written on the arguments that a node stands for: on the items of a list, or
on the node itself. -/
def argumentTys (node : Node) : List Ty :=
  match node.form with
  | .list items => items.map written
  | _ => [node.written]

/-- The arguments that a node stands for are the items of a list, and else the node itself. -/
theorem argumentTys_eq (node : Node) :
    node.argumentTys =
      if node.form.isList then node.form.children.map written else [node.written] := by
  obtain ⟨form, location, ty⟩ := node
  cases form <;> rfl

end Node

namespace Ty

/-- Nothing is reported of a type that is expected exactly if it is accepted. -/
theorem expect_eq_nil_iff {e a : Ty} : e.expect a = [] ↔ e.accepts a = true := by
  unfold expect
  cases e.accepts a <;> simp

/-- Holds types against an expected one, which the first of them sets if there is none
yet. -/
def expectAlike (expected : Option Ty) : List Ty → List Diagnostic
  | [] => []
  | ty :: tys => Ty.expect? expected ty ++ expectAlike (some (expected.getD ty)) tys

/-- Items that are held against a given type are each held against it. -/
theorem expectAlike_some (expected : Ty) (tys : List Ty) :
    Ty.expectAlike (some expected) tys = tys.flatMap expected.expect := by
  induction tys with
  | nil => rfl
  | cons ty tys ih =>
    rw [expectAlike, Option.getD_some, ih, List.flatMap_cons]
    rfl

end Ty

namespace Checker

def unboundReports (c : Checker) (s : Scope) (name : String) : List Diagnostic :=
  match s.lookup? name with
  | some _ => []
  | none => if c.strict then [.unresolved name] else []

def rebindReports (c : Checker) (s : Scope) (name : String) (ty : Ty) : List Diagnostic :=
  match s.lookup? name with
  | some previous => if c.strict then [.redeclared name previous.render ty.render] else []
  | none => []

end Checker

/-- What a binding binds its name to: its annotation, or else the type of its value. -/
def Scope.boundTy (s : Scope) (declared : Option Ty) (value : Option Node) : Ty :=
  (declared.map s.resolve).getD ((value.map Node.written).getD .any)

def Scope.after (s : Scope) : Form → Scope
  | .binding name declared value => s.declare name (s.boundTy declared value)
  | _ => s

namespace Form

def impliedTy (ops : Operators) (s : Scope) : Form → Ty
  | .number _ => .number
  | .text _ => .string
  | .boolean _ => .boolean
  | .nil => .nil
  | .name x => ((s.lookup? x).map s.resolve).getD .any
  | .binary op left right => (ops.binary? op left.written right.written).getD .any
  | .unary op operand => (ops.unary? op operand.written).getD .any
  | .list _ | .statement _ | .block _ | .binding _ _ _ => .nil
  | .call callee _ _ => callee.written.returned
  | .group inner => inner.written
  | .array items => .array ((items.map Node.written).headD .any)
  | .table pairs =>
    .table (((pairs.map (·.1)).map Node.written).headD .any)
      (((pairs.map (·.2)).map Node.written).headD .any)
  | .index target _ => target.written.held

/-- What there is to report at a form by the types of its children. -/
def reports (c : Checker) (s : Scope) : Form → List Diagnostic
  | .name x => c.unboundReports s x
  | .binary op left right => (Verdict.ofBinary c.operators op left.written right.written).reports
  | .unary op operand => (Verdict.ofUnary c.operators op operand.written).reports
  | .call callee arguments selfCall =>
    (Verdict.ofCall callee.written arguments.argumentTys selfCall).reports
  | .binding x declared value =>
    (Verdict.ofBinding (declared.map s.resolve) (value.map Node.written)).reports ++
      c.rebindReports s x (s.boundTy declared value)
  | .array items => Ty.expectAlike none (items.map Node.written)
  | .table pairs =>
    Ty.expectAlike none ((pairs.map (·.1)).map Node.written) ++
      Ty.expectAlike none ((pairs.map (·.2)).map Node.written)
  | .index target key => (Verdict.ofIndex target.written key.written).reports
  | _ => []

/-! ### Forms with other children of the same types -/

variable {form : Form} {nodes : List Node}

/-- The keys and values of a table constructor with other children have the types of these. -/
theorem map_written_zip {pairs : List (Node × Node)}
    (h : nodes.map Node.written = (table pairs).children.map Node.written) :
    let others := (nodes.take pairs.length).zip (nodes.drop pairs.length)
    (others.map (·.1)).map Node.written = (pairs.map (·.1)).map Node.written ∧
      (others.map (·.2)).map Node.written = (pairs.map (·.2)).map Node.written := by
  have hlength : nodes.length = pairs.length + pairs.length := by
    simpa [children] using congrArg List.length h
  have hkeys : ((nodes.take pairs.length).zip (nodes.drop pairs.length)).map (·.1) =
      nodes.take pairs.length := List.map_fst_zip (by simp; omega)
  have hvalues : ((nodes.take pairs.length).zip (nodes.drop pairs.length)).map (·.2) =
      nodes.drop pairs.length := List.map_snd_zip (by simp; omega)
  intro others
  rw [hkeys, hvalues, List.map_take, List.map_drop, h, children, List.map_append]
  exact ⟨List.take_left' (by simp), List.drop_left' (by simp)⟩

/-- The type that a form implies depends on the types of its children only. -/
theorem impliedTy_withChildren (ops : Operators) (s : Scope)
    (h : nodes.map Node.written = form.children.map Node.written) :
    (form.withChildren nodes).impliedTy ops s = form.impliedTy ops s := by
  have hlength : nodes.length = form.children.length := by simpa using congrArg List.length h
  cases form with
  | array items => exact congrArg (fun tys => Ty.array (tys.headD .any)) h
  | table pairs =>
    obtain ⟨hkeys, hvalues⟩ := map_written_zip h
    rw [withChildren, impliedTy, impliedTy, hkeys, hvalues]
  | binding x declared value =>
    cases value with
    | none => rfl
    | some value =>
      obtain ⟨node, rfl⟩ := List.length_eq_one_iff.1 hlength
      rfl
  | binary | call | index =>
    obtain ⟨first, second, rfl⟩ := List.length_eq_two.1 hlength
    simp only [children, List.map_cons, List.map_nil, List.cons.injEq, and_true] at h
    simp only [withChildren, impliedTy, h]
  | unary | group | statement =>
    obtain ⟨node, rfl⟩ := List.length_eq_one_iff.1 hlength
    simp only [children, List.map_cons, List.map_nil, List.cons.injEq, and_true] at h
    simp only [withChildren, impliedTy, h]
  | _ => rfl

/-- What a form binds depends on the types of its children only. -/
theorem after_withChildren (s : Scope)
    (h : nodes.map Node.written = form.children.map Node.written) :
    s.after (form.withChildren nodes) = s.after form := by
  have hlength : nodes.length = form.children.length := by simpa using congrArg List.length h
  cases form with
  | binding x declared value =>
    cases value with
    | none => rfl
    | some value =>
      obtain ⟨node, rfl⟩ := List.length_eq_one_iff.1 hlength
      simp only [children, Option.toList_some, List.map_cons, List.map_nil, List.cons.injEq,
        and_true] at h
      simp only [withChildren, Scope.after, Scope.boundTy, Option.map_some, h]
  | binary | call | index =>
    obtain ⟨first, second, rfl⟩ := List.length_eq_two.1 hlength
    rfl
  | unary | group | statement =>
    obtain ⟨node, rfl⟩ := List.length_eq_one_iff.1 hlength
    rfl
  | _ => rfl

/-- What there is to report at a form depends on the types of its children only, and on those of the
arguments if it is a call. -/
theorem reports_withChildren (c : Checker) (s : Scope)
    (h : nodes.map Node.written = form.children.map Node.written)
    (hargs : nodes.map Node.argumentTys = form.children.map Node.argumentTys) :
    (form.withChildren nodes).reports c s = form.reports c s := by
  have hlength : nodes.length = form.children.length := by simpa using congrArg List.length h
  cases form with
  | array items => exact congrArg (Ty.expectAlike none) h
  | table pairs =>
    obtain ⟨hkeys, hvalues⟩ := map_written_zip h
    rw [withChildren, reports, reports, hkeys, hvalues]
  | binding x declared value =>
    cases value with
    | none => rfl
    | some value =>
      obtain ⟨node, rfl⟩ := List.length_eq_one_iff.1 hlength
      simp only [children, Option.toList_some, List.map_cons, List.map_nil, List.cons.injEq,
        and_true] at h
      simp only [withChildren, reports, Scope.boundTy, Option.map_some, h]
  | binary | call | index =>
    obtain ⟨first, second, rfl⟩ := List.length_eq_two.1 hlength
    simp only [children, List.map_cons, List.map_nil, List.cons.injEq, and_true] at h hargs
    simp only [withChildren, reports, h, hargs]
  | unary | group | statement =>
    obtain ⟨node, rfl⟩ := List.length_eq_one_iff.1 hlength
    simp only [children, List.map_cons, List.map_nil, List.cons.injEq, and_true] at h
    simp only [withChildren, reports, h]
  | _ => rfl

end Form

namespace Verdict

/-- The type of an operation on two operands is the result of its rule, and unknown without
one. -/
@[simp] theorem ofBinary_ty (ops : Operators) (op : BinaryOp) (left right : Ty) :
    (ofBinary ops op left right).ty = (ops.binary? op left right).getD .any := by
  rw [ofBinary]
  cases ops.binary? op left right <;> rfl

/-- The type of an operation on one operand is the result of its rule, and unknown without one. -/
@[simp] theorem ofUnary_ty (ops : Operators) (op : UnaryOp) (operand : Ty) :
    (ofUnary ops op operand).ty = (ops.unary? op operand).getD .any := by
  rw [ofUnary]
  cases ops.unary? op operand <;> rfl

/-- The type of a call is what the callee returns, whatever its arguments are. -/
@[simp] theorem ofCall_ty (callee : Ty) (arguments : List Ty) (selfCall : Bool) :
    (ofCall callee arguments selfCall).ty = callee.returned := by
  rcases callee with (_ | _ | _ | _ | _) | _ | _ | _ | _ <;> rfl

/-- The type of an index is what the target holds, whatever the key is. -/
@[simp] theorem ofIndex_ty (target key : Ty) : (ofIndex target key).ty = target.held := by
  rcases target with (_ | _ | _ | _ | _) | _ | _ | _ | _ <;> rfl

/-- The type of a variable is its annotation, or else the type of its value, or else unknown. -/
@[simp] theorem ofBinding_ty (declared value : Option Ty) :
    (ofBinding declared value).ty = declared.getD (value.getD .any) := by
  cases declared <;> cases value <;> rfl

end Verdict

end GradualScript
