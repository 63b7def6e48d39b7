import GradualScript.Proofs.Typing.Rules

/-!
# How checks run

What the parts of a check do from a given scope, in the form in which later proofs use
it. A check of a form is a check of its children in order, after which the types written
on them settle everything else (`Checker.infer_settles`). So it is no different whether
children are items that are to be alike, arguments, keys or values.

A check writes the type that it finds on the node (`Checker.check_writes`), and leaves as it
is what can be told of a form without its children (`Checker.infer_same`). A check in a context
adds what it reports to the diagnostics (`Context.check_eq`).
-/

set_option autoImplicit false

namespace GradualScript

namespace Walk

/-- To report something changes nothing else. -/
@[simp] theorem run_report (reports : List Diagnostic) (s : Scope) :
    (report reports).run s = ⟨(), s, reports⟩ :=
  rfl

/-- To settle a verdict is to take its type and to report what it reports. -/
@[simp] theorem run_settle (verdict : Verdict) (s : Scope) :
    (settle verdict).run s = ⟨verdict.ty, s, verdict.reports⟩ :=
  rfl

/-- An annotation is resolved in the scope at hand, and nothing is reported. -/
@[simp] theorem run_resolve? (ty : Option Ty) (s : Scope) :
    (resolve? ty).run s = ⟨ty.map s.resolve, s, []⟩ :=
  rfl

end Walk

namespace Checker

variable (c : Checker)

/-- A check of a node checks its form and writes down the type that is found. -/
theorem run_check (form : Form) (location : Location) (ty : Option Ty) (s : Scope) :
    (c.check ⟨form, location, ty⟩).run s =
      let inferred := (c.infer form).run s
      ⟨⟨⟨inferred.result.item, location, some inferred.result.ty⟩, inferred.result.ty⟩,
        inferred.scope, inferred.reports⟩ := by
  simp [check]

/-- A check writes the type that it finds. -/
theorem check_writes (node : Node) (s : Scope) :
    ((c.check node).run s).result.item.ty = some ((c.check node).run s).result.ty := by
  obtain ⟨form, location, ty⟩ := node
  rw [run_check]

/-- The type that is written on a checked tree is the one that was found for it. -/
@[simp] theorem written_check (node : Node) (s : Scope) :
    ((c.check node).run s).result.item.written = ((c.check node).run s).result.ty := by
  rw [Node.written, check_writes, Option.getD_some]

/-! ### Several trees -/

/-- The check of no trees changes nothing. -/
@[simp] theorem run_checkEach_nil (s : Scope) : (c.checkEach []).run s = ⟨[], s, []⟩ := rfl

/-- Trees are checked one after the other, each in the scope that those before it have left. -/
theorem run_checkEach_cons (node : Node) (rest : List Node) (s : Scope) :
    (c.checkEach (node :: rest)).run s =
      let first := (c.check node).run s
      let others := (c.checkEach rest).run first.scope
      ⟨first.result :: others.result, others.scope, first.reports ++ others.reports⟩ := by
  simp [checkEach]

/-- The check of trees after others starts from the scope that the others have left. -/
theorem run_checkEach_append (items others : List Node) (s : Scope) :
    (c.checkEach (items ++ others)).run s =
      let first := (c.checkEach items).run s
      let second := (c.checkEach others).run first.scope
      ⟨first.result ++ second.result, second.scope, first.reports ++ second.reports⟩ := by
  induction items generalizing s with
  | nil => rfl
  | cons node rest ih =>
    simp only [List.cons_append, run_checkEach_cons, ih, List.append_assoc]

/-- The types that are found for trees are those that are written on them. -/
theorem map_ty_checkEach (items : List Node) (s : Scope) :
    ((c.checkEach items).run s).result.map (·.ty) =
      (((c.checkEach items).run s).result.map (·.item)).map Node.written := by
  induction items generalizing s with
  | nil => rfl
  | cons node rest ih =>
    rw [run_checkEach_cons]
    simp only [List.map_cons, ih, written_check]

/-- As many trees come out of a check as went in. -/
@[simp] theorem length_checkEach (items : List Node) (s : Scope) :
    ((c.checkEach items).run s).result.length = items.length := by
  induction items generalizing s with
  | nil => rfl
  | cons node rest ih =>
    rw [run_checkEach_cons]
    simp only [List.length_cons, ih]

/-- The type that stands for trees is the one written on the first. -/
theorem headTy_checkEach (items : List Node) (s : Scope) :
    Typed.headTy ((c.checkEach items).run s).result =
      ((((c.checkEach items).run s).result.map (·.item)).map Node.written).headD .any := by
  rw [← map_ty_checkEach]
  cases ((c.checkEach items).run s).result <;> rfl

/-- The arguments of a call are checked like any other node, and their types are written
on them. -/
theorem run_checkArguments (node : Node) (s : Scope) :
    (c.checkArguments node).run s =
      let checked := (c.check node).run s
      ⟨(checked.result.item, checked.result.item.argumentTys), checked.scope,
        checked.reports⟩ := by
  obtain ⟨form, location, ty⟩ := node
  rw [run_check]
  cases form
  case list items =>
    have htys := map_ty_checkEach c items s
    simpa [checkArguments, infer, Node.argumentTys] using htys
  case table pairs => simp [checkArguments, infer, Node.argumentTys, Node.written]
  case binding name declared value =>
    cases value <;> simp [checkArguments, infer, Node.argumentTys, Node.written]
  all_goals simp [checkArguments, infer, Node.argumentTys, Node.written]

/-- The keys of a table constructor are checked like the items of an array constructor. -/
theorem checkSide_key (expected : Option Ty) (pairs : List (Node × Node)) :
    c.checkSide .key expected pairs = c.checkAlike expected (pairs.map (·.1)) := by
  induction pairs generalizing expected with
  | nil => rfl
  | cons pair rest ih =>
    simp only [checkSide, checkAlike, List.map_cons, ih]

/-- The values of a table constructor are checked like the items of an array. -/
theorem checkSide_value (expected : Option Ty) (pairs : List (Node × Node)) :
    c.checkSide .value expected pairs = c.checkAlike expected (pairs.map (·.2)) := by
  induction pairs generalizing expected with
  | nil => rfl
  | cons pair rest ih =>
    simp only [checkSide, checkAlike, List.map_cons, ih]

/-- Items that are to be alike are checked like any others. What is reported besides is
that they are not. -/
theorem run_checkAlike (expected : Option Ty) (items : List Node) (s : Scope) :
    let plain := (c.checkEach items).run s
    ((c.checkAlike expected items).run s).result = plain.result ∧
      ((c.checkAlike expected items).run s).scope = plain.scope ∧
      ((c.checkAlike expected items).run s).reports.Perm
        (plain.reports ++ Ty.expectAlike expected (plain.result.map (·.ty))) := by
  induction items generalizing expected s with
  | nil => exact ⟨rfl, rfl, List.Perm.refl _⟩
  | cons node rest ih =>
    let first := (c.check node).run s
    obtain ⟨hresult, hscope, hreports⟩ := ih (some (expected.getD first.result.ty)) first.scope
    have hrun : (c.checkAlike expected (node :: rest)).run s =
        let others := (c.checkAlike (some (expected.getD first.result.ty)) rest).run first.scope
        ⟨first.result :: others.result, others.scope,
          first.reports ++ (Ty.expect? expected first.result.ty ++ others.reports)⟩ := by
      simp [checkAlike, first]
    rw [hrun, run_checkEach_cons]
    refine ⟨congrArg (List.cons _) hresult, hscope, ?_⟩
    simp only [List.map_cons, Ty.expectAlike, List.append_assoc]
    refine List.Perm.append_left _ ((hreports.append_left _).trans ?_)
    rw [← List.append_assoc, ← List.append_assoc]
    exact List.perm_append_comm.append_right _

/-! ### Forms -/

/-- What a check of a form comes to after a check of its children: the form with the
checked children, and beyond that only what the types written on them imply. Reports may
come in another order. -/
structure Settles (form : Form) (children : Outcome (List (Typed Node)))
    (outcome : Outcome (Typed Form)) : Prop where
  item_eq : outcome.result.item = form.withChildren (children.result.map (·.item))
  ty_eq : outcome.result.ty = outcome.result.item.impliedTy c.operators children.scope
  scope_eq : outcome.scope = children.scope.after outcome.result.item
  reports_perm :
    outcome.reports.Perm (children.reports ++ outcome.result.item.reports c children.scope)

/-- A variable is bound to the type that its annotation and its value settle on. -/
theorem run_bindName (name : String) (declared value : Option Ty) (s : Scope) :
    (c.bindName name declared value).run s =
      let verdict := Verdict.ofBinding (declared.map s.resolve) value
      ⟨(), s.declare name verdict.ty, verdict.reports ++ c.rebindReports s name verdict.ty⟩ := by
  have hdeclare (ty : Ty) : (c.declareName name ty).run s =
      ⟨(), s.declare name ty, c.rebindReports s name ty⟩ := rfl
  simp [bindName, hdeclare]

/-- A use of a name finds its resolved type, or nothing, and leaves the scope as it is. -/
theorem run_lookupName (name : String) (s : Scope) :
    (c.lookupName name).run s =
      ⟨((s.lookup? name).map s.resolve).getD .any, s, c.unboundReports s name⟩ := by
  simp only [Walk.run, lookupName, unboundReports]
  cases s.lookup? name <;> rfl

/-- A check of an array constructor is a check of its items, which settles it. -/
theorem infer_array_settles (items : List Node) (s : Scope) :
    c.Settles (.array items) ((c.checkEach items).run s) ((c.infer (.array items)).run s) := by
  obtain ⟨hresult, hscope, hperm⟩ := c.run_checkAlike none items s
  rw [map_ty_checkEach] at hperm
  have hrun : (c.infer (.array items)).run s =
      ⟨⟨.array ((((c.checkEach items).run s).result).map (·.item)),
          .array (Typed.headTy ((c.checkEach items).run s).result)⟩,
        ((c.checkEach items).run s).scope, ((c.checkAlike none items).run s).reports⟩ := by
    simp [infer, hresult, hscope]
  rw [hrun]
  refine ⟨rfl, ?_, rfl, hperm⟩
  rw [headTy_checkEach]
  rfl

/-- A table constructor checks its keys and then its values, and has a type of its own from
the first of either. -/
theorem run_infer_table (pairs : List (Node × Node)) (s : Scope) :
    let keys := (c.checkEach (pairs.map (·.1))).run s
    let values := (c.checkEach (pairs.map (·.2))).run keys.scope
    (c.infer (.table pairs)).run s =
      ⟨⟨.table ((keys.result.map (·.item)).zip (values.result.map (·.item))),
          .table (Typed.headTy keys.result) (Typed.headTy values.result)⟩, values.scope,
        ((c.checkAlike none (pairs.map (·.1))).run s).reports ++
          ((c.checkAlike none (pairs.map (·.2))).run keys.scope).reports⟩ := by
  intro keys values
  obtain ⟨hkeys, hkeyScope, -⟩ := c.run_checkAlike none (pairs.map (·.1)) s
  obtain ⟨hvalues, hvalueScope, -⟩ := c.run_checkAlike none (pairs.map (·.2)) keys.scope
  simp [infer, checkSide_key, checkSide_value, hkeys, hkeyScope, hvalues, hvalueScope, keys,
    values]

/-- A check of a table constructor is a check of its keys and then of its values, which
settles it. -/
theorem infer_table_settles (pairs : List (Node × Node)) (s : Scope) :
    c.Settles (.table pairs) ((c.checkEach (Form.table pairs).children).run s)
      ((c.infer (.table pairs)).run s) := by
  let keys := (c.checkEach (pairs.map (·.1))).run s
  let values := (c.checkEach (pairs.map (·.2))).run keys.scope
  obtain ⟨-, -, hkeyPerm⟩ := c.run_checkAlike none (pairs.map (·.1)) s
  obtain ⟨-, -, hvaluePerm⟩ := c.run_checkAlike none (pairs.map (·.2)) keys.scope
  rw [map_ty_checkEach] at hkeyPerm hvaluePerm
  -- The checked keys and values are paired again, and none gets lost.
  have hkeyLength : (keys.result.map (·.item)).length = pairs.length := by simp [keys]
  have hvalueLength : (values.result.map (·.item)).length = pairs.length := by simp [values]
  have hitem : (Form.table pairs).withChildren ((keys.result ++ values.result).map (·.item)) =
      .table ((keys.result.map (·.item)).zip (values.result.map (·.item))) := by
    rw [Form.withChildren, List.map_append, List.take_left' hkeyLength,
      List.drop_left' hkeyLength]
  have hfst := List.map_fst_zip (Nat.le_of_eq (hkeyLength.trans hvalueLength.symm))
  have hsnd := List.map_snd_zip (Nat.le_of_eq (hvalueLength.trans hkeyLength.symm))
  rw [run_infer_table, Form.children, run_checkEach_append]
  refine ⟨hitem.symm, ?_, rfl, (hkeyPerm.append hvaluePerm).trans ?_⟩
  · rw [headTy_checkEach, headTy_checkEach]
    simp only [Form.impliedTy]
    rw [hfst, hsnd]
  · simp only [Form.reports]
    rw [hfst, hsnd, List.append_assoc, List.append_assoc]
    refine List.Perm.append_left _ ?_
    rw [← List.append_assoc, ← List.append_assoc]
    exact List.perm_append_comm.append_right _

/-- A check of a form is a check of its children in order, which settles it. -/
theorem infer_settles (form : Form) (s : Scope) :
    c.Settles form ((c.checkEach form.children).run s) ((c.infer form).run s) := by
  cases form with
  | array items => exact c.infer_array_settles items s
  | table pairs => exact c.infer_table_settles pairs s
  | binding name declared value =>
    cases value <;> constructor <;>
      simp [infer, run_bindName, run_checkEach_cons, Form.children, Form.withChildren,
        Form.impliedTy, Form.reports, Scope.after, Scope.boundTy]
  | _ =>
    constructor <;>
      simp [infer, run_lookupName, run_checkArguments, run_checkEach_cons, Form.children,
        Form.withChildren, Form.impliedTy, Form.reports, Scope.after]

/-- Nothing is reported in a check of a form if nothing is in that of its children, and the
types on them fit. -/
theorem reports_infer_eq_nil_iff (form : Form) (s : Scope) :
    let children := (c.checkEach form.children).run s
    let inferred := (c.infer form).run s
    inferred.reports = [] ↔
      children.reports = [] ∧ inferred.result.item.reports c children.scope = [] := by
  intro children inferred
  have hlength := (c.infer_settles form s).reports_perm.length_eq
  rw [← List.append_eq_nil_iff, ← List.length_eq_zero_iff, ← List.length_eq_zero_iff, hlength]

/-- The children of a checked form are its children, checked in order. -/
theorem children_infer (form : Form) (s : Scope) :
    ((c.infer form).run s).result.item.children =
      ((c.checkEach form.children).run s).result.map (·.item) := by
  rw [(c.infer_settles form s).item_eq, Form.children_withChildren form (by simp)]

/-- The children of a checked tree are its checked children. -/
theorem children_check (node : Node) (s : Scope) :
    ((c.check node).run s).result.item.form.children =
      ((c.checkEach node.form.children).run s).result.map (·.item) := by
  obtain ⟨form, location, ty⟩ := node
  rw [run_check]
  exact c.children_infer form s

/-- A check leaves as it is what can be told of a form without its children. -/
theorem infer_same {α : Type} {f : Form → α}
    (hf : ∀ form nodes, f (form.withChildren nodes) = f form) (form : Form) (s : Scope) :
    f ((c.infer form).run s).result.item = f form := by
  rw [(c.infer_settles form s).item_eq, hf]

/-- What a check of each tree leaves as it is, a check of them in order does. -/
theorem map_checkEach {α : Type} {f : Node → α} (items : List Node)
    (h : ∀ node ∈ items, ∀ s, f ((c.check node).run s).result.item = f node) (s : Scope) :
    (((c.checkEach items).run s).result.map (·.item)).map f = items.map f := by
  induction items generalizing s with
  | nil => rfl
  | cons node rest ih =>
    rw [run_checkEach_cons]
    simp only [List.map_cons]
    rw [h node List.mem_cons_self, ih fun other hother => h other (List.mem_cons_of_mem _ hother)]

/-- In a tree a check leaves as it is what can be told of all forms without their children. -/
theorem filterMap_check {α : Type} {f : Form → Option α}
    (hf : ∀ form nodes, f (form.withChildren nodes) = f form) (node : Node) (s : Scope) :
    ((c.check node).run s).result.item.visited.filterMap (fun n => f n.form) =
      node.visited.filterMap fun n => f n.form := by
  induction node using Node.induction generalizing s with
  | step form location ty ih =>
    rw [Node.filterMap_visited, Node.filterMap_visited, children_check, List.flatMap,
      c.map_checkEach _ ih, run_check]
    dsimp only
    rw [c.infer_same hf]
    rfl

/-- The names that are bound in a tree stay as they are in a check. -/
theorem boundNames_check (node : Node) (s : Scope) :
    ((c.check node).run s).result.item.boundNames = node.boundNames :=
  c.filterMap_check Form.boundName?_withChildren node s

/-- Each of some trees is checked in the scope that those before it have left. -/
theorem getElem?_checkEach (items : List Node) (s : Scope) (i : Nat) :
    ((c.checkEach items).run s).result[i]? =
      items[i]?.map fun node =>
        ((c.check node).run ((c.checkEach (items.take i)).run s).scope).result := by
  induction items generalizing s i with
  | nil => rfl
  | cons node rest ih =>
    rw [run_checkEach_cons]
    cases i with
    | zero => rfl
    | succ i =>
      rw [List.take_succ_cons, run_checkEach_cons]
      exact ih _ i

/-! ### What a check leaves as it is -/

/-- A form that binds no name leaves the scope as it is. -/
theorem after_of_boundName? {s : Scope} {form : Form} (h : form.boundName? = none) :
    s.after form = s := by
  cases form with
  | binding name declared value => simp [Form.boundName?] at h
  | _ => rfl

/-- A form leaves what is bound to all names but its own. -/
theorem lookup?_after {s : Scope} {form : Form} {name : String}
    (h : form.boundName? ≠ some name) : (s.after form).lookup? name = s.lookup? name := by
  cases form with
  | binding bound declared value =>
    have hne : name ≠ bound := fun heq => h (by rw [heq, Form.boundName?])
    rw [Scope.after, Scope.lookup?_declare, if_neg hne]
  | _ => rfl

/-- What a check of each tree keeps, a check of them in order keeps. -/
theorem checkEach_keeps {I : Scope → Prop} (items : List Node)
    (hcheck : ∀ node ∈ items, ∀ s, I s → I ((c.check node).run s).scope) (s : Scope) (hs : I s) :
    I ((c.checkEach items).run s).scope := by
  induction items generalizing s with
  | nil => exact hs
  | cons node rest ih =>
    rw [run_checkEach_cons]
    exact ih (fun other hother => hcheck other (List.mem_cons_of_mem _ hother)) _
      (hcheck node List.mem_cons_self s hs)

/-- What holds of a scope and goes on to hold after every form with an admitted bound name,
or none, holds after a check of a tree of such forms. -/
theorem check_keeps {I : Scope → Prop} {B : Option String → Prop}
    (hstep : ∀ (form : Form) (s : Scope), B form.boundName? → I s → I (s.after form))
    (node : Node) (hnode : ∀ n ∈ node.visited, B n.form.boundName?) (s : Scope) (hs : I s) :
    I ((c.check node).run s).scope := by
  induction node using Node.induction generalizing s with
  | step form location ty ih =>
    rw [Node.visited_eq] at hnode
    have hown : B form.boundName? :=
      hnode ⟨form, location, ty⟩ (List.mem_append_right _ (List.mem_singleton_self _))
    have hchildren := c.checkEach_keeps form.children (fun child hchild t ht =>
      ih child hchild (fun n hn => hnode n
        (List.mem_append_left _ (List.mem_flatMap_of_mem hchild hn))) t ht) s hs
    rw [run_check, (c.infer_settles form s).scope_eq]
    refine hstep _ _ ?_ hchildren
    rw [c.infer_same Form.boundName?_withChildren]
    exact hown

/-- A check of a tree leaves names as they are that the tree does not bind. -/
theorem lookup?_check {name : String} (node : Node) (h : name ∉ node.boundNames) (s : Scope) :
    ((c.check node).run s).scope.lookup? name = s.lookup? name := by
  apply c.check_keeps (I := fun t => t.lookup? name = s.lookup? name) (B := (· ≠ some name))
  · intro form t hform ht
    rw [lookup?_after hform]
    exact ht
  · intro n hn hbinds
    exact h (List.mem_filterMap.2 ⟨n, hn, hbinds⟩)
  · rfl

/-- A check of a tree that binds no names leaves the scope as it is. -/
theorem scope_check (node : Node) (h : node.boundNames = []) (s : Scope) :
    ((c.check node).run s).scope = s := by
  apply c.check_keeps (I := (· = s)) (B := (· = none))
  · intro form t hform ht
    rw [after_of_boundName? hform]
    exact ht
  · intro n hn
    exact List.filterMap_eq_nil_iff.1 h n hn
  · rfl

end Checker

namespace Context

/-- Recording diagnostics one after the other adds them, and counts them. -/
theorem foldl_record (ctx : Context) (ds : List Diagnostic) :
    ds.foldl record ctx =
      ⟨ctx.strict, ctx.scope, ctx.diagnostics ++ ds, ctx.errorCount + ds.length⟩ := by
  induction ds generalizing ctx with
  | nil => simp
  | cons d ds ih =>
    rw [List.foldl_cons, ih]
    simp only [record, List.append_assoc, List.singleton_append, List.length_cons]
    congr 1
    omega

/-- A check gives what it gives in the scope of the context, and its reports are added. -/
theorem check_eq (ctx : Context) (ops : Operators) (node : Node) :
    ctx.check ops node =
      let outcome := ((ctx.checker ops).check node).run ctx.scope
      (outcome.result, ⟨ctx.strict, outcome.scope, ctx.diagnostics ++ outcome.reports,
        ctx.errorCount + outcome.reports.length⟩) := by
  simp only [check, foldl_record]

section Check

variable (ctx : Context) (ops : Operators) (node : Node)

/-- A check in a context finds what the checker finds in its scope. -/
theorem result_check :
    (ctx.check ops node).1 = (((ctx.checker ops).check node).run ctx.scope).result := by
  rw [check_eq]

/-- A check leaves a context with the scope that the checker leaves. -/
theorem scope_check :
    (ctx.check ops node).2.scope = (((ctx.checker ops).check node).run ctx.scope).scope := by
  rw [check_eq]

/-- A check adds to the diagnostics of a context what the checker reports, in order. -/
theorem diagnostics_check :
    (ctx.check ops node).2.diagnostics =
      ctx.diagnostics ++ (((ctx.checker ops).check node).run ctx.scope).reports := by
  rw [check_eq]

/-- A check leaves the rules that the next one goes by. -/
theorem checker_check (ops' : Operators) :
    (ctx.check ops node).2.checker ops' = ctx.checker ops' := by
  rw [check_eq]
  rfl

end Check

end Context

end GradualScript
