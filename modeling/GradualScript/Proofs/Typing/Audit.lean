import GradualScript.Proofs.Typing.Runs

/-!
# A check can be audited from the tree it annotates

An annotated tree says by itself what its check went through. Its nodes, in the order in
which they got their types, and the scope before the check give the scope of every visit:
only bindings change the scope, and what they bind can be read off their annotation and
the type written on their value (`visits`).

Each visit implies the type that the node has to have, and how many faults of each kind
there are to report at it, which is drawn up in `Visit.account`. The check of a tree
writes just these types and reports just these faults, in any context, with any operators
and for any tree (`Context.check_accounted`). The proof is by induction on children: a
check of a form is a check of its children, which `Audited` goes along with, and then adds
one visit.
-/

set_option autoImplicit false

namespace GradualScript

/-- A node, and the scope in which it gets its type. -/
structure Visit where
  scope : Scope
  node : Node

def Scope.afterAll (s : Scope) (nodes : List Node) : Scope :=
  nodes.foldl (fun t node => t.after node.form) s

/-- The visits of nodes that get their types in this order. -/
def visits (s : Scope) : List Node → List Visit
  | [] => []
  | node :: rest => ⟨s, node⟩ :: visits (s.after node.form) rest

/-- The visits of nodes after others start from the scope that the others leave. -/
theorem visits_append (s : Scope) (nodes others : List Node) :
    visits s (nodes ++ others) = visits s nodes ++ visits (s.afterAll nodes) others := by
  induction nodes generalizing s with
  | nil => rfl
  | cons node rest ih =>
    rw [List.cons_append, visits, visits, ih, List.cons_append]
    rfl

/-- The nodes of the visits are the nodes that were visited. -/
theorem map_node_visits (s : Scope) (nodes : List Node) :
    (visits s nodes).map Visit.node = nodes := by
  induction nodes generalizing s with
  | nil => rfl
  | cons node rest ih => rw [visits, List.map_cons, ih]

def Visit.impliedTy (ops : Operators) (v : Visit) : Ty := v.node.form.impliedTy ops v.scope

def Visit.reports (c : Checker) (v : Visit) : List Diagnostic := v.node.form.reports c v.scope

/-! ## Faults -/

namespace Ty

def isUncallable : Ty → Bool
  | .function _ _ => false
  | ty => !ty.isAny

/-- Whether something of a type is known to be neither a table nor an array. -/
def isUnindexable : Ty → Bool
  | .table _ _ => false
  | .array _ => false
  | ty => !ty.isAny

/-- Whether a function is called with too few or too many arguments. -/
def miscounts (callee : Ty) (arguments : List Ty) (selfCall : Bool) : Bool :=
  match callee with
  | .function params _ => (Verdict.openParams params selfCall).length != arguments.length
  | _ => false

/-- The number of arguments that do not fit the parameters of types. Parameters without an
argument and arguments without a parameter do not count. -/
def misfits (params arguments : List Ty) : Nat :=
  (params.zip arguments).countP fun pair => !pair.1.accepts pair.2

/-- The number of arguments that a call of something of a type rejects. -/
def rejectedArguments (callee : Ty) (arguments : List Ty) (selfCall : Bool) : Nat :=
  match callee with
  | .function params _ => misfits (Verdict.openParams params selfCall) arguments
  | _ => 0

def rejectsKey (target key : Ty) : Bool :=
  match target with
  | .table expected _ => !expected.accepts key
  | .array _ => !number.accepts key
  | _ => false

def strays : List Ty → Nat
  | [] => 0
  | first :: others => others.countP fun ty => !first.accepts ty

end Ty

namespace Form

/-- Whether a form is an operation whose operator has no rule, or one that its operands
break. -/
def breaksOperator (ops : Operators) : Form → Bool
  | .binary op left right => (ops.binary? op left.written right.written).isNone
  | .unary op operand => (ops.unary? op operand.written).isNone
  | _ => false

/-- Whether a form is a call of something that is known not to be a function. -/
def callsNoFunction : Form → Bool
  | .call callee _ _ => callee.written.isUncallable
  | _ => false

/-- Whether a form indexes something that is known to be neither a table nor an array. -/
def indexesNoContainer : Form → Bool
  | .index target _ => target.written.isUnindexable
  | _ => false

/-- Whether a form calls a function with too few or too many arguments. -/
def miscounts : Form → Bool
  | .call callee arguments selfCall => callee.written.miscounts arguments.argumentTys selfCall
  | _ => false

/-- The number of types in a form that are held against another one and do not fit it:
arguments against parameters, keys against what is indexed, items of a constructor against
the first, and the value of a variable against its annotation. -/
def rejections (s : Scope) : Form → Nat
  | .call callee arguments selfCall =>
    callee.written.rejectedArguments arguments.argumentTys selfCall
  | .index target key => (target.written.rejectsKey key.written).toNat
  | .array items => Ty.strays (items.map Node.written)
  | .table pairs =>
    Ty.strays ((pairs.map (·.1)).map Node.written) + Ty.strays ((pairs.map (·.2)).map Node.written)
  | .binding _ (some declared) (some value) =>
    (!(s.resolve declared).accepts value.written).toNat
  | _ => 0

def isUnbound (s : Scope) : Form → Bool
  | .name x => (s.lookup? x).isNone
  | _ => false

def rebinds (s : Scope) : Form → Bool
  | .binding x _ _ => (s.lookup? x).isSome
  | _ => false

end Form

/-- The kinds of faults. -/
inductive Fault where
  | mismatch
  | unresolved
  | redeclared
  | operator
  | notCallable
  | arity
  | notIndexable
deriving DecidableEq

/-- What kind of fault a diagnostic reports. -/
def Diagnostic.fault : Diagnostic → Fault
  | .mismatch _ _ => .mismatch
  | .unresolved _ => .unresolved
  | .redeclared _ _ _ => .redeclared
  | .operator _ _ => .operator
  | .notCallable _ => .notCallable
  | .arity _ _ => .arity
  | .notIndexable _ => .notIndexable

/-- The number of diagnostics of one kind. -/
def tally (ds : List Diagnostic) (fault : Fault) : Nat := ds.countP fun d => d.fault == fault

/-- How many faults of a kind there are to report at a visit. Names are at fault in strict
checks only. -/
def Visit.account (c : Checker) (v : Visit) : Fault → Nat
  | .mismatch => v.node.form.rejections v.scope
  | .unresolved => (v.node.form.isUnbound v.scope && c.strict).toNat
  | .redeclared => (v.node.form.rebinds v.scope && c.strict).toNat
  | .operator => (v.node.form.breaksOperator c.operators).toNat
  | .notCallable => v.node.form.callsNoFunction.toNat
  | .arity => v.node.form.miscounts.toNat
  | .notIndexable => v.node.form.indexesNoContainer.toNat

/-- How many faults of a kind there are to report at some visits together. -/
def accountAll (c : Checker) : List Visit → Fault → Nat
  | [], _ => 0
  | v :: vs, fault => v.account c fault + accountAll c vs fault

/-! ### Counting reports -/

section Tally

variable (fault : Fault)

/-- Where nothing is reported there is nothing to count. -/
@[simp] theorem tally_nil : tally [] fault = 0 := rfl

/-- A single diagnostic counts for its own kind only. -/
@[simp] theorem tally_singleton (d : Diagnostic) :
    tally [d] fault = (d.fault == fault).toNat := by
  unfold tally
  cases hd : d.fault == fault <;> simp [hd]

/-- The reports of two parts are counted part by part. -/
@[simp] theorem tally_append (ds es : List Diagnostic) :
    tally (ds ++ es) fault = tally ds fault + tally es fault :=
  List.countP_append

/-- A type held against another one is reported if it does not fit. -/
@[simp] theorem tally_expect (expected actual : Ty) :
    tally (expected.expect actual) fault =
      if fault = .mismatch then (!expected.accepts actual).toNat else 0 := by
  unfold Ty.expect
  cases expected.accepts actual <;> cases fault <;> rfl

/-- Of types held against the same one those are reported that do not fit it. -/
theorem tally_flatMap_expect (expected : Ty) (tys : List Ty) :
    tally (tys.flatMap expected.expect) fault =
      if fault = .mismatch then tys.countP fun ty => !expected.accepts ty else 0 := by
  induction tys with
  | nil => simp
  | cons ty tys ih =>
    rw [List.flatMap_cons, tally_append, ih, tally_expect, List.countP_cons]
    split
    · cases expected.accepts ty <;> simp [Nat.add_comm]
    · rfl

/-- Of the items of a constructor those are reported that do not fit the first. -/
@[simp] theorem tally_expectAlike (tys : List Ty) :
    tally (Ty.expectAlike none tys) fault = if fault = .mismatch then Ty.strays tys else 0 := by
  cases tys with
  | nil => simp [Ty.expectAlike, Ty.strays]
  | cons first others =>
    rw [Ty.expectAlike, tally_append, Option.getD_none, Ty.expectAlike_some,
      tally_flatMap_expect]
    exact Nat.zero_add _

/-- Of the arguments of a call those are reported that do not fit their parameter. -/
@[simp] theorem tally_expectEach (params arguments : List Ty) :
    tally (Ty.expectEach params arguments) fault =
      if fault = .mismatch then Ty.misfits params arguments else 0 := by
  induction params generalizing arguments with
  | nil => simp [Ty.expectEach, Ty.misfits]
  | cons param params ih =>
    cases arguments with
    | nil => simp [Ty.expectEach, Ty.misfits]
    | cons argument arguments =>
      have hmisfits : Ty.misfits (param :: params) (argument :: arguments) =
          (!param.accepts argument).toNat + Ty.misfits params arguments := by
        cases h : param.accepts argument <;>
          simp [Ty.misfits, h, Nat.add_comm]
      rw [Ty.expectEach, tally_append, ih, tally_expect, hmisfits]
      split <;> rfl

/-- A use of a name is reported in a strict check, if the name is not bound. -/
theorem tally_unboundReports (c : Checker) (s : Scope) (name : String) :
    tally (c.unboundReports s name) fault =
      if fault = .unresolved then ((s.lookup? name).isNone && c.strict).toNat else 0 := by
  unfold Checker.unboundReports
  cases s.lookup? name <;> cases c.strict <;> cases fault <;> rfl

/-- A binding is reported in a strict check, if the name is bound already. -/
theorem tally_rebindReports (c : Checker) (s : Scope) (name : String) (ty : Ty) :
    tally (c.rebindReports s name ty) fault =
      if fault = .redeclared then ((s.lookup? name).isSome && c.strict).toNat else 0 := by
  unfold Checker.rebindReports
  cases s.lookup? name <;> cases c.strict <;> cases fault <;> rfl

/-- An operation on two operands is reported if the operator has no rule for them. -/
theorem tally_ofBinary (ops : Operators) (op : BinaryOp) (left right : Ty) :
    tally (Verdict.ofBinary ops op left right).reports fault =
      if fault = .operator then (ops.binary? op left right).isNone.toNat else 0 := by
  unfold Verdict.ofBinary
  cases ops.binary? op left right <;> cases fault <;> rfl

/-- An operation on one operand is reported if the operator has no rule for it. -/
theorem tally_ofUnary (ops : Operators) (op : UnaryOp) (operand : Ty) :
    tally (Verdict.ofUnary ops op operand).reports fault =
      if fault = .operator then (ops.unary? op operand).isNone.toNat else 0 := by
  unfold Verdict.ofUnary
  cases ops.unary? op operand <;> cases fault <;> rfl

/-- A call is reported if there is no function to call, or else once for the number of its
arguments and once for each that does not fit. -/
theorem tally_ofCall (callee : Ty) (arguments : List Ty) (selfCall : Bool) :
    tally (Verdict.ofCall callee arguments selfCall).reports fault =
      match fault with
      | .notCallable => callee.isUncallable.toNat
      | .arity => (callee.miscounts arguments selfCall).toNat
      | .mismatch => callee.rejectedArguments arguments selfCall
      | _ => 0 := by
  cases callee with
  | primitive kind => cases kind <;> cases fault <;> rfl
  | function params result =>
    refine (tally_append fault _ _).trans ?_
    rw [tally_expectEach]
    by_cases hcount : (Verdict.openParams params selfCall).length = arguments.length
    · rw [if_pos hcount]
      cases fault <;> simp [Ty.isUncallable, Ty.miscounts, Ty.rejectedArguments, hcount]
    · have hne := bne_iff_ne.2 hcount
      rw [if_neg hcount]
      cases fault <;>
        simp [Ty.isUncallable, Ty.miscounts, Ty.rejectedArguments, hne, Diagnostic.fault]
  | _ => cases fault <;> rfl

/-- An index is reported if there is nothing to index, or else if its key does not fit. -/
theorem tally_ofIndex (target key : Ty) :
    tally (Verdict.ofIndex target key).reports fault =
      match fault with
      | .notIndexable => target.isUnindexable.toNat
      | .mismatch => (target.rejectsKey key).toNat
      | _ => 0 := by
  cases target with
  | primitive kind => cases kind <;> cases fault <;> rfl
  | table expected value => exact (tally_expect fault expected key).trans (by cases fault <;> rfl)
  | array element => exact (tally_expect fault .number key).trans (by cases fault <;> rfl)
  | _ => cases fault <;> rfl

/-- A binding is reported as a mismatch if there is an annotation and a value that does not fit
it. -/
theorem tally_ofBinding (declared value : Option Ty) :
    tally (Verdict.ofBinding declared value).reports fault =
      match declared, value with
      | some expected, some actual =>
        if fault = .mismatch then (!expected.accepts actual).toNat else 0
      | _, _ => 0 := by
  cases declared with
  | none => cases value <;> rfl
  | some expected =>
    cases value with
    | none => rfl
    | some actual => exact tally_expect fault expected actual

/-- What there is to report at a visit is as much of each kind as the visit accounts
for. -/
theorem tally_reports (c : Checker) (v : Visit) :
    tally (v.reports c) fault = v.account c fault := by
  obtain ⟨s, form, location, ty⟩ := v
  cases form with
  | name name => exact (tally_unboundReports fault c s name).trans (by cases fault <;> rfl)
  | binary op left right => exact (tally_ofBinary fault _ op _ _).trans (by cases fault <;> rfl)
  | unary op operand => exact (tally_ofUnary fault _ op _).trans (by cases fault <;> rfl)
  | call callee arguments selfCall =>
    exact (tally_ofCall fault _ _ selfCall).trans (by cases fault <;> rfl)
  | binding name declared value =>
    refine (tally_append fault _ _).trans ?_
    rw [tally_ofBinding, tally_rebindReports]
    cases declared <;> cases value <;> cases fault <;> first | rfl | exact Nat.zero_add _
  | array items =>
    exact (tally_expectAlike fault (items.map Node.written)).trans (by cases fault <;> rfl)
  | table pairs =>
    refine (tally_append fault _ _).trans ?_
    rw [tally_expectAlike, tally_expectAlike]
    cases fault <;> rfl
  | index target key => exact (tally_ofIndex fault _ _).trans (by cases fault <;> rfl)
  | _ => cases fault <;> rfl

/-- What there is to report at some visits is as much of each kind as they account for. -/
theorem tally_flatMap_reports (c : Checker) (vs : List Visit) :
    tally (vs.flatMap (Visit.reports c)) fault = accountAll c vs fault := by
  induction vs with
  | nil => rfl
  | cons v vs ih => rw [List.flatMap_cons, tally_append, tally_reports, ih, accountAll]

end Tally

/-! ## Following a check -/

/-- From one scope to another, nodes have been visited that bear the types their visits
imply, and what there was to report at them has been reported. -/
structure Audited (c : Checker) (s : Scope) (nodes : List Node) (s' : Scope)
    (reports : List Diagnostic) : Prop where
  scope_eq : s' = s.afterAll nodes
  typed : ∀ v ∈ visits s nodes, v.node.ty = some (v.impliedTy c.operators)
  reports_perm : reports.Perm ((visits s nodes).flatMap (Visit.reports c))

namespace Audited

variable {c : Checker} {s s' s'' : Scope} {nodes others : List Node}
  {reports reports' : List Diagnostic}

/-- Where no node has been visited there is nothing to report. -/
theorem nil : Audited c s [] s [] := ⟨rfl, by simp [visits], List.Perm.refl _⟩

/-- Two runs of visits, one after the other, are a run of visits. -/
theorem append (h : Audited c s nodes s' reports) (h' : Audited c s' others s'' reports') :
    Audited c s (nodes ++ others) s'' (reports ++ reports') := by
  obtain ⟨rfl, htyped, hperm⟩ := h
  obtain ⟨rfl, htyped', hperm'⟩ := h'
  refine ⟨?_, ?_, ?_⟩
  · rw [Scope.afterAll, Scope.afterAll, Scope.afterAll, List.foldl_append]
  · intro v hv
    rw [visits_append] at hv
    rcases List.mem_append.1 hv with hv | hv
    · exact htyped v hv
    · exact htyped' v hv
  · rw [visits_append, List.flatMap_append]
    exact hperm.append hperm'

/-- A visit is added at the end of a run, with the type that it implies and its reports. -/
theorem snoc (h : Audited c s nodes s' reports) {node : Node}
    (hty : node.ty = some (Visit.impliedTy c.operators ⟨s', node⟩))
    (hscope : s'' = s'.after node.form)
    (hperm : reports'.Perm (reports ++ Visit.reports c ⟨s', node⟩)) :
    Audited c s (nodes ++ [node]) s'' reports' := by
  have hown : Audited c s' [node] s'' (Visit.reports c ⟨s', node⟩) :=
    ⟨hscope, by simpa [visits] using hty, by simp [visits]⟩
  obtain ⟨hafter, htyped, hall⟩ := h.append hown
  exact ⟨hafter, htyped, hperm.trans hall⟩

end Audited

namespace Checker

variable {c : Checker}

/-- The check of a node does what the visits of the annotated node ask for, from every
scope. -/
def Audits (c : Checker) (node : Node) : Prop :=
  ∀ s, let outcome := (c.check node).run s
    Audited c s outcome.result.item.visited outcome.scope outcome.reports

/-- A list of trees is audited if each tree is. -/
theorem Audits.each {items : List Node} (h : ∀ node ∈ items, c.Audits node) (s : Scope) :
    let outcome := (c.checkEach items).run s
    Audited c s ((outcome.result.map (·.item)).flatMap Node.visited) outcome.scope
      outcome.reports := by
  induction items generalizing s with
  | nil => exact Audited.nil
  | cons node rest ih =>
    rw [run_checkEach_cons]
    simp only [List.map_cons, List.flatMap_cons]
    have hfirst := h node List.mem_cons_self s
    exact hfirst.append (ih (fun other hother => h other (List.mem_cons_of_mem _ hother)) _)

/-- A check of any tree can be audited. -/
theorem audits (c : Checker) (node : Node) : c.Audits node := by
  induction node using Node.induction with
  | step form location ty ih =>
    intro s
    have hchildren := Audits.each ih s
    obtain ⟨-, hty, hscope, hperm⟩ := c.infer_settles form s
    rw [run_check]
    dsimp only
    rw [Node.visited_eq]
    dsimp only
    rw [children_infer]
    exact hchildren.snoc (congrArg some hty) hscope hperm

/-- A check changes nothing about a tree but the types written on its nodes. -/
theorem bare_check (c : Checker) (node : Node) (s : Scope) :
    ((c.check node).run s).result.item.bare = node.bare := by
  induction node using Node.induction generalizing s with
  | step form location ty ih =>
    have hlength : (((c.checkEach form.children).run s).result.map (·.item)).length =
        form.children.length := by simp
    rw [run_check, Node.bare_eq, Node.bare_eq]
    dsimp only
    rw [(c.infer_settles form s).item_eq, Form.children_withChildren form hlength,
      Form.withChildren_withChildren form hlength (by simp),
      c.map_checkEach form.children ih]

end Checker

namespace Context

/-- After a check in any context, with any operators and of any tree, the annotated tree
is the tree with types written on it. Every node bears the type that its visit implies.
The diagnostics that the check has added are of each kind as many as the visits account
for, and are counted as errors. The scope is the one that the visits end in. -/
theorem check_accounted (ctx : Context) (ops : Operators) (tree : Node) :
    let after := ctx.check ops tree
    let vs := visits ctx.scope after.1.item.visited
    after.1.item.bare = tree.bare ∧ after.1.item.ty = some after.1.ty ∧
      (∀ v ∈ vs, v.node.ty = some (v.impliedTy ops)) ∧
      (∃ added, after.2.diagnostics = ctx.diagnostics ++ added ∧
        after.2.errorCount = ctx.errorCount + added.length ∧
        ∀ fault, tally added fault = accountAll (ctx.checker ops) vs fault) ∧
      after.2.scope = ctx.scope.afterAll after.1.item.visited ∧ after.2.strict = ctx.strict := by
  obtain ⟨hscope, htyped, hperm⟩ := Checker.audits (ctx.checker ops) tree ctx.scope
  rw [check_eq]
  refine ⟨(ctx.checker ops).bare_check tree ctx.scope, (ctx.checker ops).check_writes tree _,
    htyped, ⟨_, rfl, rfl, ?_⟩, hscope, rfl⟩
  intro fault
  rw [← tally_flatMap_reports]
  exact hperm.countP_eq _

/-- A strict check of four statements. An array of a number, a text and nothing is bound as an
array of numbers, a number is added to it, it is called, and its name is bound again. The visits
account for two mismatches in the array, the broken operator, the call of no function and the
second binding, and these are what is reported. -/
theorem check_accounted_statements :
    let zero := Node.ofForm (.number .zero)
    let xs := Node.ofForm (.name "xs")
    let items := Node.ofForm (.array [zero, .ofForm (.text "b"), .ofForm .nil])
    let tree := Node.ofForm (.block [.ofForm (.binding "xs" (some (.array .number)) (some items)),
      .ofForm (.statement (.ofForm (.binary .add xs zero))),
      .ofForm (.statement (.call xs [zero] false)), .ofForm (.binding "xs" none (some zero))])
    let checked := (init true).check .builtin tree
    let vs := visits .empty checked.1.item.visited
    checked.1.item.bare = tree.bare ∧ (∀ v ∈ vs, v.node.ty = some (v.impliedTy .builtin)) ∧
      checked.2.diagnostics =
        [.mismatch "Number" "String", .mismatch "Number" "Nil",
          .operator "+" "Array<Number> and Number", .notCallable "Array<Number>",
          .redeclared "xs" "Array<Number>" "Number"] ∧
      ∀ fault, accountAll ((init true).checker .builtin) vs fault =
        [Fault.mismatch, .mismatch, .operator, .notCallable, .redeclared].count fault := by
  intro zero xs items tree checked vs
  obtain ⟨hbare, -, htyped, ⟨added, hadded, -, haccount⟩, -, -⟩ :=
    check_accounted (init true) .builtin tree
  have hreports : checked.2.diagnostics =
      [.mismatch "Number" "String", .mismatch "Number" "Nil",
        .operator "+" "Array<Number> and Number", .notCallable "Array<Number>",
        .redeclared "xs" "Array<Number>" "Number"] := by decide +kernel
  have hlist : added = _ := hadded.symm.trans hreports
  refine ⟨hbare, htyped, hreports, fun fault => (haccount fault).symm.trans ?_⟩
  rw [hlist]
  cases fault <;> rfl

end Context

end GradualScript
