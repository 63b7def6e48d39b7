import GradualScript.Proofs.Ty.Texts
import GradualScript.Proofs.Typing.Aliases
import GradualScript.Proofs.Typing.Runs

/-!
# The vocabulary of a check

The names in the types that a check finds come from somewhere: from the types that names are
bound to, from annotations, or from the operators. So if all of these stay within a
vocabulary, which is a property `P` of names, then so does every type that the check writes on
a node or binds a name to (`Checker.Confines.check`).

What it takes is stated of the single steps (`Checker.Confines`): the types that names and
annotations are resolved to, and the results of operators, are within the vocabulary, and
binding a name to such a type keeps what is assumed of scopes. A scope that is within the
vocabulary as a whole is the main case (`Checker.confines_within`).

A check compares no other types than these, so the texts in the report of a mismatch are those
of two types within the vocabulary (`Diagnostic.Compares`). If all names in it are plain, the
two texts differ (`Context.mismatch_texts_ne`).
-/

set_option autoImplicit false

namespace GradualScript

/-! ## Types, scopes and operators within a vocabulary -/

/-- Whether the types that names are bound to are within a vocabulary. -/
def Scope.Within (s : Scope) (P : String → Prop) : Prop :=
  ∀ name ty, s.lookup? name = some ty → ty.Within P

/-- The type of an operation that keeps to the rule. -/
def BinaryRule.outcome : BinaryRule → Ty
  | .uniform _ result => result
  | .alike result => result

def UnaryRule.outcome : UnaryRule → Ty
  | .uniform _ result => result
  | .sized result => result

/-- Whether the results of all operators are within a vocabulary. -/
structure Operators.Within (ops : Operators) (P : String → Prop) : Prop where
  binary {op : BinaryOp} {rule : BinaryRule} : ops.binary op = some rule → rule.outcome.Within P
  unary {op : UnaryOp} {rule : UnaryRule} : ops.unary op = some rule → rule.outcome.Within P

variable {P : String → Prop}

namespace Ty

/-- What a call gives has only names of the type that is called. -/
theorem Within.returned {a : Ty} (h : a.Within P) : a.returned.Within P := by
  cases a with
  | function params result => exact (within_function.1 h).2
  | _ => exact within_primitive .any

/-- What an index gives has only names of the type that is indexed. -/
theorem Within.held {a : Ty} (h : a.Within P) : a.held.Within P := by
  cases a with
  | array element => exact h
  | table key value => exact (within_table.1 h).2
  | _ => exact within_primitive .any

/-- The first of some types is within their vocabulary, and so is `Any` if there is none. -/
theorem within_headD {as : List Ty} (h : ∀ a ∈ as, a.Within P) : (as.headD .any).Within P := by
  cases as with
  | nil => exact within_primitive .any
  | cons a as => exact h a List.mem_cons_self

end Ty

namespace Scope.Within

variable {s : Scope} {ty : Ty}

/-- A scope is within a vocabulary if all its bindings are. -/
theorem of_bindings (h : ∀ b ∈ s.bindings, b.2.Within P) : s.Within P :=
  fun name found hfound => h (name, found) (mem_bindings hfound)

/-- From a type within a vocabulary nothing else is reached in a scope within it. -/
theorem of_reaches (hs : s.Within P) (hty : ty.Within P) {name : String} (h : s.Reaches ty name) :
    P name := by
  obtain ⟨start, hstart, hpath⟩ := h
  rcases hpath.cases_tail with rfl | ⟨m, -, found, hfound, hname⟩
  · exact hty _ hstart
  · exact hs m found hfound name hname

/-- A type within a vocabulary is so when it is resolved in a scope within it. -/
theorem resolve (hs : s.Within P) (hty : ty.Within P) : (s.resolve ty).Within P :=
  fun _ hname => hs.of_reaches hty (of_mem_names_resolve hname).1

/-- A scope within a vocabulary is so with a name bound to a type within it. -/
theorem declare (hs : s.Within P) (hty : ty.Within P) (name : String) :
    (s.declare name ty).Within P := by
  intro other found hfound
  rw [lookup?_declare] at hfound
  split at hfound
  · rwa [← Option.some.inj hfound]
  · exact hs other found hfound

end Scope.Within

namespace Operators.Within

variable {ops : Operators}

/-- What operators give for two operands is within their vocabulary. -/
theorem binary? (h : ops.Within P) (op : BinaryOp) (left right : Ty) :
    ((ops.binary? op left right).getD .any).Within P := by
  rw [Operators.binary?]
  cases hrule : ops.binary op with
  | none => exact Ty.within_primitive .any
  | some rule =>
    have hresult := h.binary hrule
    cases rule <;> simp only [Option.bind_some, BinaryRule.result?] <;> split <;>
      first | exact hresult | exact Ty.within_primitive .any

/-- What operators give for one operand is within their vocabulary. -/
theorem unary? (h : ops.Within P) (op : UnaryOp) (operand : Ty) :
    ((ops.unary? op operand).getD .any).Within P := by
  rw [Operators.unary?]
  cases hrule : ops.unary op with
  | none => exact Ty.within_primitive .any
  | some rule =>
    have hresult := h.unary hrule
    cases rule <;> simp only [Option.bind_some, UnaryRule.result?] <;> split <;>
      first | exact hresult | exact Ty.within_primitive .any

/-- The results of the built-in operators have no names in them. -/
theorem builtin : Operators.builtin.Within P where
  binary {op rule} hrule := by
    cases op <;> obtain rfl := Option.some.inj hrule <;> exact Ty.within_primitive _
  unary {op rule} hrule := by
    cases op <;> obtain rfl := Option.some.inj hrule <;> exact Ty.within_primitive _

end Operators.Within

/-! ## Reports of mismatches -/

/-- Whether a diagnostic, if it reports a mismatch, has the texts of two types within a
vocabulary of which the expected one does not accept the other. -/
def Diagnostic.Compares (P : String → Prop) : Diagnostic → Prop
  | .mismatch expected actual =>
    ∃ e a : Ty, e.Within P ∧ a.Within P ∧ e.accepts a = false ∧
      expected = e.render ∧ actual = a.render
  | _ => True

/-- Reports of which each compares types within a vocabulary. -/
def Comparing (P : String → Prop) (ds : List Diagnostic) : Prop := ∀ d ∈ ds, d.Compares P

/-- Where nothing is reported nothing is compared. -/
theorem comparing_nil : Comparing P [] := fun _ hd => absurd hd List.not_mem_nil

/-- A single report compares what its diagnostic compares. -/
theorem comparing_singleton {d : Diagnostic} : Comparing P [d] ↔ d.Compares P :=
  List.forall_mem_singleton

/-- The reports of two parts compare types within a vocabulary exactly if those of each do. -/
theorem comparing_append {ds es : List Diagnostic} :
    Comparing P (ds ++ es) ↔ Comparing P ds ∧ Comparing P es :=
  List.forall_mem_append

namespace Ty

/-- A type that is held against another one is compared with it. -/
theorem comparing_expect {e a : Ty} (he : e.Within P) (ha : a.Within P) :
    Comparing P (e.expect a) := by
  unfold expect
  split
  · exact comparing_nil
  · rename_i hrejected
    exact comparing_singleton.2 ⟨e, a, he, ha, Bool.eq_false_iff.2 hrejected, rfl, rfl⟩

/-- The items of a constructor are compared within the vocabulary of their types. -/
theorem comparing_expectAlike {tys : List Ty} (htys : ∀ ty ∈ tys, ty.Within P) :
    Comparing P (expectAlike none tys) := by
  cases tys with
  | nil => exact comparing_nil
  | cons first others =>
    rw [List.forall_mem_cons] at htys
    rw [expectAlike, expectAlike_some]
    intro d hd
    obtain ⟨ty, hty, hd⟩ := List.mem_flatMap.1 hd
    exact comparing_expect htys.1 (htys.2 ty hty) d hd

/-- Arguments are compared with parameters within the vocabulary of both. -/
theorem comparing_expectEach {params arguments : List Ty} (hparams : ∀ a ∈ params, a.Within P)
    (harguments : ∀ a ∈ arguments, a.Within P) : Comparing P (expectEach params arguments) := by
  induction params generalizing arguments with
  | nil => exact comparing_nil
  | cons param params ih =>
    cases arguments with
    | nil => exact comparing_nil
    | cons argument arguments =>
      rw [List.forall_mem_cons] at hparams harguments
      exact comparing_append.2
        ⟨comparing_expect hparams.1 harguments.1, ih hparams.2 harguments.2⟩

end Ty

namespace Verdict

/-- What is reported of an operation on two operands is no mismatch. -/
theorem comparing_ofBinary (ops : Operators) (op : BinaryOp) (left right : Ty) :
    Comparing P (ofBinary ops op left right).reports := by
  unfold ofBinary
  split
  · exact comparing_nil
  · exact comparing_singleton.2 trivial

/-- What is reported of an operation on one operand is no mismatch. -/
theorem comparing_ofUnary (ops : Operators) (op : UnaryOp) (operand : Ty) :
    Comparing P (ofUnary ops op operand).reports := by
  unfold ofUnary
  split
  · exact comparing_nil
  · exact comparing_singleton.2 trivial

/-- The parameters that the arguments of a call are held against are parameters of the callee. -/
theorem mem_of_mem_openParams {params : List Ty} {selfCall : Bool} {a : Ty}
    (h : a ∈ openParams params selfCall) : a ∈ params := by
  unfold openParams at h
  split at h
  · exact List.mem_of_mem_drop h
  · exact h

/-- A call compares types within the vocabulary of the callee and the arguments. -/
theorem comparing_ofCall {callee : Ty} {arguments : List Ty} (hcallee : callee.Within P)
    (harguments : ∀ a ∈ arguments, a.Within P) (selfCall : Bool) :
    Comparing P (ofCall callee arguments selfCall).reports := by
  unfold ofCall
  split
  · rename_i params result
    have hopen : ∀ a ∈ openParams params selfCall, a.Within P :=
      fun a ha => (Ty.within_function.1 hcallee).1 a (mem_of_mem_openParams ha)
    refine comparing_append.2 ⟨?_, Ty.comparing_expectEach hopen harguments⟩
    split
    · exact comparing_nil
    · exact comparing_singleton.2 trivial
  · exact comparing_nil
  · exact comparing_singleton.2 trivial

/-- An index compares types within the vocabulary of the target and the key. -/
theorem comparing_ofIndex {target key : Ty} (htarget : target.Within P) (hkey : key.Within P) :
    Comparing P (ofIndex target key).reports := by
  unfold ofIndex
  split
  · exact Ty.comparing_expect (Ty.within_table.1 htarget).1 hkey
  · exact Ty.comparing_expect (Ty.within_primitive .number) hkey
  · exact comparing_nil
  · exact comparing_singleton.2 trivial

/-- A binding compares types within the vocabulary of its annotation and its value. -/
theorem comparing_ofBinding {declared value : Option Ty} (hdeclared : ∀ ty ∈ declared, ty.Within P)
    (hvalue : ∀ ty ∈ value, ty.Within P) : Comparing P (ofBinding declared value).reports := by
  cases declared with
  | none => cases value <;> exact comparing_nil
  | some expected =>
    cases value with
    | none => exact comparing_nil
    | some actual => exact Ty.comparing_expect (hdeclared expected rfl) (hvalue actual rfl)

end Verdict

namespace Checker

/-- A report of a name that is not bound compares no types. -/
theorem comparing_unboundReports (c : Checker) (s : Scope) (name : String) :
    Comparing P (c.unboundReports s name) := by
  unfold unboundReports
  split
  · exact comparing_nil
  · split
    · exact comparing_singleton.2 trivial
    · exact comparing_nil

/-- A report of a second binding compares no types. -/
theorem comparing_rebindReports (c : Checker) (s : Scope) (name : String) (ty : Ty) :
    Comparing P (c.rebindReports s name ty) := by
  unfold rebindReports
  split
  · split
    · exact comparing_singleton.2 trivial
    · exact comparing_nil
  · exact comparing_nil

end Checker

/-! ## What is written in trees -/

def Form.declared? : Form → Option Ty
  | .binding _ declared _ => declared
  | _ => none

/-- The annotation of a form does not depend on its children. -/
theorem Form.declared?_withChildren (form : Form) (nodes : List Node) :
    (form.withChildren nodes).declared? = form.declared? := by
  unfold withChildren
  split <;> rfl

namespace Node

/-- The annotations in a tree. -/
def declaredTys (node : Node) : List Ty := node.visited.filterMap (·.form.declared?)

/-- The annotations in a tree are those of its children and its own. -/
theorem declaredTys_eq (node : Node) :
    node.declaredTys =
      node.form.children.flatMap declaredTys ++ node.form.declared?.toList :=
  filterMap_visited _ node

/-- The annotations in a tree that has just been built are those of its children and its own. -/
theorem declaredTys_ofForm (form : Form) :
    (ofForm form).declaredTys =
      form.children.flatMap declaredTys ++ form.declared?.toList :=
  declaredTys_eq _

/-- Whether the types written on the nodes of a tree are within a vocabulary. -/
def Within (node : Node) (P : String → Prop) : Prop := ∀ n ∈ node.visited, n.written.Within P

/-- A tree is within a vocabulary if its children are and the type that is written on it is. -/
theorem within_iff (node : Node) :
    node.Within P ↔ (∀ child ∈ node.form.children, child.Within P) ∧ node.written.Within P := by
  rw [Within, visited_eq, List.forall_mem_append, List.forall_mem_flatMap,
    List.forall_mem_singleton]
  rfl

/-- The type that is written on a tree within a vocabulary is within it. -/
theorem Within.written {node : Node} (h : node.Within P) : node.written.Within P :=
  ((within_iff node).1 h).2

/-- The arguments that a node within a vocabulary stands for have types within it. -/
theorem Within.argumentTys {node : Node} (h : node.Within P) :
    ∀ ty ∈ node.argumentTys, ty.Within P := by
  rw [argumentTys_eq]
  split
  · exact List.forall_mem_map.2 fun child hchild => (((within_iff node).1 h).1 child hchild).written
  · exact List.forall_mem_singleton.2 h.written

end Node

/-! ## Checks within a vocabulary -/

namespace Checker

/-- The annotations in a tree stay as they are in a check. -/
theorem declaredTys_check (c : Checker) (node : Node) (s : Scope) :
    ((c.check node).run s).result.item.declaredTys = node.declaredTys :=
  c.filterMap_check Form.declared?_withChildren node s

/-- Each step of a check keeps types within the vocabulary `P`, provided that `I` holds of
scopes, `D` of annotations and `B` of the names that are bound. -/
structure Confines (c : Checker) (P : String → Prop) (I : Scope → Prop) (D : Ty → Prop)
    (B : String → Prop) : Prop where
  operators : c.operators.Within P
  lookup {s : Scope} {name : String} {ty : Ty} :
    I s → s.lookup? name = some ty → (s.resolve ty).Within P
  resolve {s : Scope} {ty : Ty} : I s → D ty → (s.resolve ty).Within P
  declare {s : Scope} {name : String} {ty : Ty} :
    I s → B name → ty.Within P → I (s.declare name ty)

/-- Steps from a scope within a vocabulary lead to scopes within it, whatever is bound. -/
theorem confines_within {c : Checker} (hops : c.operators.Within P) :
    c.Confines P (·.Within P) (·.Within P) fun _ => True where
  operators := hops
  lookup hs hname := hs.resolve (hs _ _ hname)
  resolve hs hty := hs.resolve hty
  declare hs _ hty := hs.declare hty _

namespace Confines

variable {c : Checker} {I : Scope → Prop} {D : Ty → Prop} {B : String → Prop} {s : Scope}

/-- A form has a type within the vocabulary if its children have. -/
theorem impliedTy (h : c.Confines P I D B) (hs : I s) {form : Form}
    (hchildren : ∀ child ∈ form.children, child.written.Within P) :
    (form.impliedTy c.operators s).Within P := by
  have hitems {items : List Node} (hmem : ∀ item ∈ items, item ∈ form.children) :
      ((items.map Node.written).headD .any).Within P :=
    Ty.within_headD (List.forall_mem_map.2 fun item hitem => hchildren item (hmem item hitem))
  cases form with
  | name x =>
    cases hx : s.lookup? x with
    | none => simp [Form.impliedTy, hx]
    | some ty => simpa [Form.impliedTy, hx] using h.lookup hs hx
  | binary op left right => exact h.operators.binary? op _ _
  | unary op operand => exact h.operators.unary? op _
  | call callee arguments selfCall =>
    exact (hchildren callee List.mem_cons_self).returned
  | group inner => exact hchildren inner List.mem_cons_self
  | array items => exact hitems fun item hitem => hitem
  | table pairs =>
    exact Ty.within_table.2 ⟨hitems fun key hkey => List.mem_append_left _ hkey,
      hitems fun value hvalue => List.mem_append_right _ hvalue⟩
  | index target key => exact (hchildren target List.mem_cons_self).held
  | _ => exact Ty.within_primitive _

/-- A name is bound to a type within the vocabulary if its annotation is admitted and its value
has such a type. -/
theorem boundTy (h : c.Confines P I D B) (hs : I s) {declared : Option Ty} {value : Option Node}
    (hdeclared : ∀ ty ∈ declared, D ty) (hvalue : ∀ node ∈ value, node.written.Within P) :
    (s.boundTy declared value).Within P := by
  cases declared with
  | some ty => exact h.resolve hs (hdeclared ty rfl)
  | none =>
    cases value with
    | some value => exact hvalue value rfl
    | none => exact Ty.within_primitive .any

/-- What is assumed of a scope holds after a form, if it binds an admitted name and its
annotation and its children are within the vocabulary. -/
theorem after (h : c.Confines P I D B) (hs : I s) {form : Form}
    (hdeclared : ∀ ty ∈ form.declared?.toList, D ty) (hbound : ∀ x ∈ form.boundName?.toList, B x)
    (hchildren : ∀ child ∈ form.children, child.written.Within P) : I (s.after form) := by
  cases form with
  | binding x declared value =>
    have hty : (s.boundTy declared value).Within P :=
      h.boundTy hs (fun ty hty => hdeclared ty (Option.mem_toList.2 hty))
        (fun node hnode => hchildren node (Option.mem_toList.2 hnode))
    exact h.declare hs (hbound x (by simp [Form.boundName?])) hty
  | _ => exact hs

/-- What is reported at a form compares types within the vocabulary. -/
theorem reports (h : c.Confines P I D B) (hs : I s) {form : Form}
    (hdeclared : ∀ ty ∈ form.declared?.toList, D ty)
    (hchildren : ∀ child ∈ form.children, child.Within P) : Comparing P (form.reports c s) := by
  have hitems {items : List Node} (hmem : ∀ item ∈ items, item ∈ form.children) :
      Comparing P (Ty.expectAlike none (items.map Node.written)) :=
    Ty.comparing_expectAlike (List.forall_mem_map.2 fun item hitem =>
      (hchildren item (hmem item hitem)).written)
  cases form with
  | name x => exact c.comparing_unboundReports s x
  | binary op left right => exact Verdict.comparing_ofBinary _ op _ _
  | unary op operand => exact Verdict.comparing_ofUnary _ op _
  | call callee arguments selfCall =>
    exact Verdict.comparing_ofCall (hchildren callee (by simp [Form.children])).written
      (hchildren arguments (by simp [Form.children])).argumentTys selfCall
  | binding x declared value =>
    refine comparing_append.2
      ⟨Verdict.comparing_ofBinding ?_ ?_, c.comparing_rebindReports s x _⟩
    · intro ty hty
      obtain ⟨written, hwritten, rfl⟩ := Option.map_eq_some_iff.1 hty
      exact h.resolve hs (hdeclared written (by simpa [Form.declared?] using hwritten))
    · intro ty hty
      obtain ⟨node, hnode, rfl⟩ := Option.map_eq_some_iff.1 hty
      exact (hchildren node (by simpa [Form.children] using hnode)).written
  | array items => exact hitems fun item hitem => hitem
  | table pairs =>
    exact comparing_append.2 ⟨hitems fun key hkey => List.mem_append_left _ hkey,
      hitems fun value hvalue => List.mem_append_right _ hvalue⟩
  | index target key =>
    exact Verdict.comparing_ofIndex (hchildren target (by simp [Form.children])).written
      (hchildren key (by simp [Form.children])).written
  | _ => exact comparing_nil

/-- What a check leaves behind within a vocabulary: a scope of which the same is assumed, a
tree with types within the vocabulary, and reports that compare such types. -/
structure Confined (P : String → Prop) (I : Scope → Prop) (outcome : Outcome (Typed Node)) :
    Prop where
  scope : I outcome.scope
  item : outcome.result.item.Within P
  reports : Comparing P outcome.reports

/-- The check of a list of trees keeps to a vocabulary if that of each tree does. -/
theorem checkEach {items : List Node}
    (hcheck : ∀ node ∈ items, ∀ s, I s → Confined P I ((c.check node).run s)) (hs : I s) :
    I ((c.checkEach items).run s).scope ∧
      (∀ checked ∈ ((c.checkEach items).run s).result, checked.item.Within P) ∧
      Comparing P ((c.checkEach items).run s).reports := by
  induction items generalizing s with
  | nil => exact ⟨hs, fun _ hchecked => absurd hchecked List.not_mem_nil, comparing_nil⟩
  | cons node rest ih =>
    obtain ⟨hscope, hitem, hreports⟩ := hcheck node List.mem_cons_self s hs
    obtain ⟨hend, hrest, hothers⟩ :=
      ih (fun other hother => hcheck other (List.mem_cons_of_mem _ hother)) hscope
    rw [run_checkEach_cons]
    exact ⟨hend, List.forall_mem_cons.2 ⟨hitem, hrest⟩, comparing_append.2 ⟨hreports, hothers⟩⟩

/-- A check of a tree stays within a vocabulary if its steps do. -/
theorem check (h : c.Confines P I D B) (node : Node) (hdeclared : ∀ ty ∈ node.declaredTys, D ty)
    (hbound : ∀ x ∈ node.boundNames, B x) (hs : I s) : Confined P I ((c.check node).run s) := by
  induction node using Node.induction generalizing s with
  | step form location ty ih =>
    rw [Node.declaredTys_eq, List.forall_mem_append, List.forall_mem_flatMap] at hdeclared
    rw [Node.boundNames_eq, List.forall_mem_append, List.forall_mem_flatMap] at hbound
    obtain ⟨hscope, hitems, hreports⟩ := checkEach (fun child hchild _ ht =>
      ih child hchild (hdeclared.1 child hchild) (hbound.1 child hchild) ht) hs
    obtain ⟨-, hty, hafter, hperm⟩ := c.infer_settles form s
    have hchildren : ∀ child ∈ ((c.infer form).run s).result.item.children, child.Within P := by
      rw [children_infer, List.forall_mem_map]
      exact hitems
    have hwritten : ∀ child ∈ ((c.infer form).run s).result.item.children,
        child.written.Within P := fun child hchild => (hchildren child hchild).written
    have hannotation : ∀ ty ∈ ((c.infer form).run s).result.item.declared?.toList, D ty := by
      rw [c.infer_same Form.declared?_withChildren]
      exact hdeclared.2
    have hname : ∀ x ∈ ((c.infer form).run s).result.item.boundName?.toList, B x := by
      rw [c.infer_same Form.boundName?_withChildren]
      exact hbound.2
    rw [run_check]
    refine ⟨?_, (Node.within_iff _).2 ⟨hchildren, ?_⟩, fun d hd => ?_⟩
    · rw [hafter]
      exact h.after hscope hannotation hname hwritten
    · rw [Node.written, Option.getD_some, hty]
      exact h.impliedTy hscope hwritten
    · rcases List.mem_append.1 (hperm.mem_iff.1 hd) with hd | hd
      · exact hreports d hd
      · exact h.reports hscope hannotation hchildren d hd

end Confines

end Checker

namespace Context

variable {ctx : Context} {ops : Operators} {tree : Node}

/-- A check stays within every vocabulary that the context, the annotations of the tree and the
results of operators are within. -/
theorem check_within (hscope : ctx.scope.Within P) (htree : ∀ ty ∈ tree.declaredTys, ty.Within P)
    (hops : ops.Within P) :
    (ctx.check ops tree).2.scope.Within P ∧ (ctx.check ops tree).1.item.Within P ∧
      ∃ added, (ctx.check ops tree).2.diagnostics = ctx.diagnostics ++ added ∧
        Comparing P added := by
  have hconfined := (Checker.confines_within (c := ctx.checker ops) hops).check tree htree
    (fun _ _ => trivial) hscope
  rw [scope_check, result_check]
  exact ⟨hconfined.scope, hconfined.item, _, diagnostics_check _ _ _, hconfined.reports⟩

/-- Among plain names no mismatch is reported with the same text for what is expected and for
what is found. -/
theorem mismatch_texts_ne (hscope : ctx.scope.Within Ty.IsPlain)
    (htree : ∀ ty ∈ tree.declaredTys, ty.Within Ty.IsPlain) (hops : ops.Within Ty.IsPlain) :
    ∃ added, (ctx.check ops tree).2.diagnostics = ctx.diagnostics ++ added ∧
      ∀ expected actual, .mismatch expected actual ∈ added → expected ≠ actual := by
  obtain ⟨-, -, added, hadded, hcomparing⟩ := check_within hscope htree hops
  refine ⟨added, hadded, ?_⟩
  rintro expected actual hmem rfl
  obtain ⟨e, a, he, ha, hrejected, htext, htext'⟩ := hcomparing _ hmem
  exact Ty.render_ne_of_rejected he ha hrejected (htext.symm.trans htext')

end Context

end GradualScript
