import GradualScript.Proofs.Typing.NameEvents
import GradualScript.Proofs.Typing.Vocabulary

/-!
# Checking a checked tree again

A check that goes over a tree once more starts from all the bindings that the first check has
made, so at every name it sees the last binding in place of the one that was in force there.
If the first check was strict and reported nothing, this makes no difference. No name was
bound twice or used before it was bound, so what a name is bound to at one place it is bound
to in the end (`Scope.Grows`). And if no name that the tree binds occurs in a type, then types
resolve to the same in both scopes (`Scope.Grows.resolve_eq`).

So the second check repeats what the first one found and leaves the scope as it is
(`Checker.check_repeats`, by induction on the tree). All that it reports is that names are
bound again, each to what it is bound to. Which names, and in which order, is known from the
events of the tree: when they are gone through again, what is wrong is exactly that names are
bound (`NameEvent.faults_again`).
-/

set_option autoImplicit false

namespace GradualScript

/-! ## Events gone through again -/

namespace NameEvent

variable {bound : String → Bool} {es : List NameEvent}

def name : NameEvent → String
  | .use name => name
  | .bind name => name

/-- Where a name is bound, it is right to use it and wrong to bind it. -/
theorem fault?_of_bound {e : NameEvent} (h : bound e.name = true) :
    e.fault? bound = e.boundName?.map .redeclared := by
  cases e <;> exact if_pos h

/-- Where all names are bound the only faults are second bindings, one for each binding in
order. -/
theorem faults_of_bound (h : ∀ e ∈ es, bound e.name = true) :
    faults bound es = (es.filterMap boundName?).map .redeclared := by
  induction es generalizing bound with
  | nil => rfl
  | cons e es ih =>
    rw [List.forall_mem_cons] at h
    have hrest : ∀ e' ∈ es, boundAfter bound [e] e'.name = true := by
      intro e' he'
      rw [boundAfter, h.2 e' he', Bool.true_or]
    rw [faults, fault?_of_bound h.1, ih hrest]
    cases e <;> rfl

/-- If there was nothing wrong with some events, then after them their names are bound. So
when they are gone through again, what is wrong is that names are bound. -/
theorem faults_again (h : faults bound es = []) :
    faults (boundAfter bound es) es = (es.filterMap boundName?).map .redeclared := by
  apply faults_of_bound
  intro e he
  cases e with
  | bind name => simp [boundAfter, NameEvent.name, he]
  | use name =>
    obtain ⟨before, after, rfl⟩ := List.append_of_mem he
    rcases bound_of_faults_eq_nil h with hbound | hbind
    · simp [boundAfter, NameEvent.name, hbound]
    · simp [boundAfter, NameEvent.name, hbind]

end NameEvent

/-! ## Scopes that grow -/

/-- The text of the type that a name is bound to. -/
def Scope.text (s : Scope) (name : String) : String := ((s.lookup? name).getD .any).render

/-- What is reported if a name is bound again to the type that it is bound to. -/
def Scope.restated (s : Scope) (name : String) : Diagnostic :=
  .redeclared name (s.text name) (s.text name)

/-- Whether one scope binds all that another one binds to the same types, and otherwise only
names in a list. -/
structure Scope.Grows (s t : Scope) (names : List String) : Prop where
  keeps {name : String} {ty : Ty} : s.lookup? name = some ty → t.lookup? name = some ty
  outside {name : String} : name ∉ names → t.lookup? name = s.lookup? name

namespace Scope.Grows

variable {names : List String} {s t u : Scope}

/-- A scope grows by nothing to itself. -/
theorem refl (s : Scope) (names : List String) : s.Grows s names := ⟨id, fun _ => rfl⟩

/-- A scope that grows twice by the same names grows by them. -/
theorem trans (h : s.Grows t names) (h' : t.Grows u names) : s.Grows u names where
  keeps hname := h'.keeps (h.keeps hname)
  outside hname := (h'.outside hname).trans (h.outside hname)

/-- A type from which none of the new names is reached resolves to the same. -/
theorem resolve_eq (h : s.Grows t names) (hs : s.Within (· ∉ names)) {ty : Ty}
    (hty : ty.Within (· ∉ names)) : t.resolve ty = s.resolve ty :=
  (resolve_congr fun _ hname => (h.outside (hs.of_reaches hty hname)).symm).symm

end Scope.Grows

/-- Whether a tree binds only names in a list and has none of them in its annotations. -/
structure Node.KeepsApart (node : Node) (names : List String) : Prop where
  declared : ∀ ty ∈ node.declaredTys, ty.Within (· ∉ names)
  bound : ∀ name ∈ node.boundNames, name ∈ names

namespace Node.KeepsApart

variable {names : List String} {node : Node}

/-- A tree that keeps names apart does so in each of its children. -/
theorem child (h : node.KeepsApart names) {child : Node} (hchild : child ∈ node.form.children) :
    child.KeepsApart names where
  declared ty hty := h.declared ty (by
    rw [declaredTys_eq]
    exact List.mem_append_left _ (List.mem_flatMap_of_mem hchild hty))
  bound name hname := h.bound name (by
    rw [boundNames_eq]
    exact List.mem_append_left _ (List.mem_flatMap_of_mem hchild hname))

/-- The annotation of a tree that keeps names apart has none of the names. -/
theorem own_declared (h : node.KeepsApart names) :
    ∀ ty ∈ node.form.declared?.toList, ty.Within (· ∉ names) := fun ty hty =>
  h.declared ty (by
    rw [declaredTys_eq]
    exact List.mem_append_right _ hty)

/-- The name that a tree binds is one of the names that it keeps apart. -/
theorem own_bound (h : node.KeepsApart names) :
    ∀ name ∈ node.form.boundName?.toList, name ∈ names := fun name hname =>
  h.bound name (by
    rw [boundNames_eq]
    exact List.mem_append_right _ hname)

end Node.KeepsApart

namespace Checker

variable {c : Checker} {names : List String} {s : Scope}

/-- A name of which a strict check reports nothing is bound. -/
theorem lookup?_of_unboundReports_eq_nil (hstrict : c.strict = true) {name : String}
    (h : c.unboundReports s name = []) : ∃ ty, s.lookup? name = some ty := by
  unfold unboundReports at h
  cases hname : s.lookup? name with
  | none => simp [hname, hstrict] at h
  | some ty => exact ⟨ty, rfl⟩

/-- A name whose binding a strict check does not report was not bound. -/
theorem lookup?_of_rebindReports_eq_nil (hstrict : c.strict = true) {name : String} {ty : Ty}
    (h : c.rebindReports s name ty = []) : s.lookup? name = none := by
  unfold rebindReports at h
  cases hname : s.lookup? name with
  | none => rfl
  | some previous => simp [hname, hstrict] at h

/-- A scope grows at a form at which a strict check has nothing to report. -/
theorem grows_after (hstrict : c.strict = true) {form : Form} (hclean : form.reports c s = [])
    (hbound : ∀ name ∈ form.boundName?.toList, name ∈ names) : s.Grows (s.after form) names := by
  cases form with
  | binding x declared value =>
    rw [Form.reports, List.append_eq_nil_iff] at hclean
    have hnew := lookup?_of_rebindReports_eq_nil hstrict hclean.2
    constructor
    · intro name ty hname
      have hne : name ≠ x := by
        rintro rfl
        rw [hnew] at hname
        contradiction
      rwa [Scope.after, Scope.lookup?_declare, if_neg hne]
    · intro name hname
      have hne : name ≠ x := by
        rintro rfl
        exact hname (hbound name (by simp [Form.boundName?]))
      rw [Scope.after, Scope.lookup?_declare, if_neg hne]
  | _ => exact .refl s names

/-- A strict check that reports nothing binds no name that is bound, so the scope grows. -/
theorem grows_check (hstrict : c.strict = true) {node : Node}
    (hclean : ((c.check node).run s).reports = [])
    (hbound : ∀ name ∈ node.boundNames, name ∈ names) :
    s.Grows ((c.check node).run s).scope names := by
  have hfaults := (reported_check hstrict node s).nameFaults_eq
  rw [hclean] at hfaults
  have hnew := (NameEvent.nodup_of_faults_eq_nil hfaults.symm).2
  rw [← Node.boundNames_eq_events] at hnew
  constructor
  · intro name ty hname
    have hold : name ∉ node.boundNames := fun hmem => by
      have hunbound := hnew name hmem
      simp [Scope.binds, hname] at hunbound
    rwa [lookup?_check c node hold]
  · intro name hname
    exact lookup?_check c node (fun hmem => hname (hbound name hmem)) s

/-- A strict check of trees that reports nothing makes the scope grow by names that they bind. -/
theorem grows_checkEach (hstrict : c.strict = true) {items : List Node}
    (hclean : ((c.checkEach items).run s).reports = [])
    (hbound : ∀ node ∈ items, ∀ name ∈ node.boundNames, name ∈ names) :
    s.Grows ((c.checkEach items).run s).scope names := by
  induction items generalizing s with
  | nil => exact .refl s names
  | cons node rest ih =>
    rw [run_checkEach_cons, List.append_eq_nil_iff] at hclean
    rw [List.forall_mem_cons] at hbound
    rw [run_checkEach_cons]
    exact (grows_check hstrict hclean.1 hbound.1).trans (ih hclean.2 hbound.2)

/-! ## A second run -/

/-- A second run finds what the first one found, leaves a scope as it is, and reports at most
that names are bound again. -/
structure Repeats {α : Type} (final : Scope) (first second : Outcome α) : Prop where
  result_eq : second.result = first.result
  scope_agrees : second.scope.Agrees final
  restates : ∀ d ∈ second.reports, ∃ name, d = final.restated name

/-- At a form at which there was nothing to report, a later scope changes nothing. Only names
and bindings look at the scope: a name has the type that it had, and a variable is bound to
the type that it is bound to. -/
theorem form_repeats (hstrict : c.strict = true) {form : Form} {final t : Scope}
    (hs : s.Within (· ∉ names)) (hdeclared : ∀ ty ∈ form.declared?.toList, ty.Within (· ∉ names))
    (hbound : ∀ name ∈ form.boundName?.toList, name ∈ names) (hclean : form.reports c s = [])
    (hfinal : (s.after form).Grows final names) (ht : t.Agrees final) :
    form.impliedTy c.operators t = form.impliedTy c.operators s ∧ (t.after form).Agrees final ∧
      ∀ d ∈ form.reports c t, ∃ name, d = final.restated name := by
  have hgrows := (grows_after hstrict hclean hbound).trans hfinal
  have hresolve {ty : Ty} (hty : ty.Within (· ∉ names)) : t.resolve ty = s.resolve ty := by
    rw [ht.resolve_eq, hgrows.resolve_eq hs hty]
  cases form with
  | name x =>
    obtain ⟨ty, hx⟩ := lookup?_of_unboundReports_eq_nil hstrict hclean
    have hxt : t.lookup? x = some ty := (ht x).trans (hgrows.keeps hx)
    refine ⟨?_, ht, ?_⟩
    · rw [Form.impliedTy, Form.impliedTy, hx, hxt, Option.map_some, Option.map_some,
        hresolve (hs x ty hx)]
    · simp [Form.reports, unboundReports, hxt]
  | binding x declared value =>
    have hexpected : declared.map t.resolve = declared.map s.resolve := by
      cases declared with
      | none => rfl
      | some ty => exact congrArg some (hresolve (hdeclared ty (by simp [Form.declared?])))
    have hty : t.boundTy declared value = s.boundTy declared value := by
      rw [Scope.boundTy, Scope.boundTy, hexpected]
    have hx : final.lookup? x = some (s.boundTy declared value) :=
      hfinal.keeps (by rw [Scope.after, Scope.lookup?_declare, if_pos rfl])
    rw [Form.reports, List.append_eq_nil_iff] at hclean
    refine ⟨rfl, ?_, ?_⟩
    · intro name
      rw [Scope.after, Scope.lookup?_declare, hty]
      split
      · rename_i hname
        rw [hname, hx]
      · exact ht name
    · rw [Form.reports, hexpected, hclean.1, List.nil_append, hty, rebindReports, ht x, hx,
        hstrict]
      intro d hd
      exact ⟨x, by simpa [Scope.restated, Scope.text, hx] using hd⟩
  | _ => exact ⟨rfl, ht, fun d hd => absurd hd (List.eq_nil_iff_forall_not_mem.1 hclean d)⟩

/-- Whether a check of a tree that reports nothing, from a scope without the names, is repeated
by a check of the annotated tree in the final scope. -/
def Repeatable (c : Checker) (names : List String) (final : Scope) (node : Node) : Prop :=
  ∀ s t : Scope, s.Within (· ∉ names) → ((c.check node).run s).reports = [] →
    ((c.check node).run s).scope.Grows final names → t.Agrees final →
    Repeats final ((c.check node).run s) ((c.check ((c.check node).run s).result.item).run t)

/-- The check of a list of trees is repeated if that of each tree is. -/
theorem checkEach_repeats (hstrict : c.strict = true) (hops : c.operators.Within (· ∉ names))
    {final : Scope} {items : List Node} (hapart : ∀ node ∈ items, node.KeepsApart names)
    (hcheck : ∀ node ∈ items, c.Repeatable names final node) {t : Scope}
    (hs : s.Within (· ∉ names)) (hclean : ((c.checkEach items).run s).reports = [])
    (hfinal : ((c.checkEach items).run s).scope.Grows final names) (ht : t.Agrees final) :
    Repeats final ((c.checkEach items).run s)
      ((c.checkEach (((c.checkEach items).run s).result.map (·.item))).run t) := by
  induction items generalizing s t with
  | nil => exact ⟨rfl, ht, fun _ hd => absurd hd List.not_mem_nil⟩
  | cons node rest ih =>
    rw [List.forall_mem_cons] at hapart hcheck
    rw [run_checkEach_cons, List.append_eq_nil_iff] at hclean
    rw [run_checkEach_cons] at hfinal ⊢
    have hnext :=
      ((confines_within hops).check node hapart.1.declared (fun _ _ => trivial) hs).scope
    have hgrows := grows_checkEach hstrict hclean.2 fun other hother =>
      (hapart.2 other hother).bound
    obtain ⟨hresult, hscope, hreports⟩ :=
      hcheck.1 s t hs hclean.1 (hgrows.trans hfinal) ht
    obtain ⟨hresults, hend, hothers⟩ := ih hapart.2 hcheck.2 hnext hclean.2 hfinal hscope
    rw [List.map_cons, run_checkEach_cons]
    exact ⟨congrArg₂ List.cons hresult hresults, hend,
      List.forall_mem_append.2 ⟨hreports, hothers⟩⟩

/-- Every tree is repeatable that keeps apart the names that it binds. -/
theorem check_repeats (hstrict : c.strict = true) (hops : c.operators.Within (· ∉ names))
    (final : Scope) (node : Node) (hapart : node.KeepsApart names) :
    c.Repeatable names final node := by
  induction node using Node.induction with
  | step form location ty ih =>
    intro s t hs hclean hfinal ht
    let children := (c.checkEach form.children).run s
    let item := ((c.infer form).run s).result.item
    have hnodes : item.children = children.result.map (·.item) := c.children_infer form s
    have hsameDeclared : item.declared? = form.declared? :=
      c.infer_same Form.declared?_withChildren form s
    have hsameName : item.boundName? = form.boundName? :=
      c.infer_same Form.boundName?_withChildren form s
    have hdeclared : ∀ ty ∈ item.declared?.toList, ty.Within (· ∉ names) :=
      hsameDeclared ▸ hapart.own_declared
    have hbound : ∀ name ∈ item.boundName?.toList, name ∈ names :=
      hsameName ▸ hapart.own_bound
    -- The reports of a form are those of its children and its own, so there are neither.
    have hfirst := c.infer_settles form s
    rw [run_check] at hclean hfinal
    obtain ⟨hquiet, hown⟩ := (c.reports_infer_eq_nil_iff form s).1 hclean
    have hafter : (children.scope.after item).Grows final names := hfirst.scope_eq ▸ hfinal
    -- The scope grows at the root as well, so the final scope is a later one for the children.
    have hagain := checkEach_repeats hstrict hops (fun child => hapart.child)
      (fun child hchild => ih child hchild (hapart.child hchild)) hs hquiet
      ((grows_after hstrict hown hbound).trans hafter) ht
    have hwithin := (Confines.checkEach (I := (·.Within (· ∉ names))) (fun child hchild _ hu =>
      (confines_within hops).check child (hapart.child hchild).declared (fun _ _ => trivial) hu)
      hs).1
    obtain ⟨hsameTy, hagrees, hrestates⟩ :=
      form_repeats hstrict hwithin hdeclared hbound hown hafter hagain.scope_agrees
    -- The second check comes to the same children, and so to the same form.
    obtain ⟨hitem, hty, hscope, hperm⟩ := c.infer_settles item t
    rw [hnodes, hagain.result_eq, ← hnodes, Form.withChildren_children] at hitem
    rw [hitem, hnodes] at hty hscope hperm
    rw [run_check, run_check]
    refine ⟨?_, ?_, fun d hd => ?_⟩
    · show (⟨⟨_, location, _⟩, _⟩ : Typed Node) = ⟨⟨_, location, _⟩, _⟩
      rw [hitem, hty, hsameTy, ← hfirst.ty_eq]
    · show Scope.Agrees _ final
      rw [hscope]
      exact hagrees
    · rcases List.mem_append.1 (hperm.mem_iff.1 hd) with hd | hd
      · exact hagain.restates d hd
      · exact hrestates d hd

/-- Reports that restate bindings are known from what they say about names. -/
theorem eq_map_restated {ds : List Diagnostic} {bound : List String}
    (h : ∀ d ∈ ds, ∃ name, d = s.restated name)
    (hfaults : nameFaults ds = bound.map .redeclared) : ds = bound.map s.restated := by
  induction ds generalizing bound with
  | nil =>
    obtain rfl : bound = [] := by simpa using hfaults
    rfl
  | cons d ds ih =>
    rw [List.forall_mem_cons] at h
    obtain ⟨⟨name, rfl⟩, hrest⟩ := h
    have hcons : nameFaults (s.restated name :: ds) = .redeclared name :: nameFaults ds := rfl
    rw [hcons] at hfaults
    cases bound with
    | nil => contradiction
    | cons x bound =>
      obtain ⟨hx, hbound⟩ := List.cons.inj hfaults
      obtain rfl := NameFault.redeclared.inj hx
      exact congrArg (List.cons _) (ih hrest hbound)

/-- A second check finds what the first one found and leaves the scope as it is. It reports for
each binding in the tree, in the order of visits, that its name is bound again. -/
theorem run_check_again (hstrict : c.strict = true) (tree : Node)
    (hs : s.Within (· ∉ tree.boundNames))
    (htree : ∀ ty ∈ tree.declaredTys, ty.Within (· ∉ tree.boundNames))
    (hops : c.operators.Within (· ∉ tree.boundNames))
    (hclean : ((c.check tree).run s).reports = []) :
    let first := (c.check tree).run s
    let second := (c.check first.result.item).run first.scope
    second.result = first.result ∧ second.scope.Agrees first.scope ∧
      second.reports = tree.boundNames.map first.scope.restated := by
  intro first second
  have hrepeats := check_repeats hstrict hops first.scope tree ⟨htree, fun _ => id⟩ s first.scope
    hs hclean (.refl _ _) fun _ => rfl
  have hfirst := reported_check hstrict tree s
  have hsecond := reported_check hstrict first.result.item first.scope
  have hright : NameEvent.faults s.binds tree.events = [] := by
    rw [← hfirst.nameFaults_eq, hclean, nameFaults_nil]
  refine ⟨hrepeats.result_eq, hrepeats.scope_agrees, eq_map_restated hrepeats.restates ?_⟩
  rw [hsecond.nameFaults_eq, events_check, hfirst.binds_eq, NameEvent.faults_again hright,
    Node.boundNames_eq_events]

/-- Where the first strict check reports nothing and the second one only things about names,
two lenient checks report nothing. -/
theorem run_check_again_lenient (ops : Operators) (tree : Node) {s t : Scope} (hsame : s.Agrees t) :
    let strict : Checker := ⟨true, ops⟩
    let lenient : Checker := ⟨false, ops⟩
    let first := (strict.check tree).run s
    let first' := (lenient.check tree).run t
    first.reports = [] →
      (∀ d ∈ ((strict.check first.result.item).run first.scope).reports, d.concernsName = true) →
      first'.reports = [] ∧ ((lenient.check first'.result.item).run first'.scope).reports = [] := by
  intro strict lenient first first' hclean hnames
  have hparallel := (match_strict_lenient ops).check tree
  have hresult : first.result = first'.result := hparallel.result hsame
  have hscope : first.scope.Agrees first'.scope := hparallel.scope hsame
  have hagain := (match_strict_lenient ops).check first.result.item
  refine ⟨(hparallel.reports hsame).trans ?_, ?_⟩
  · rw [show ((strict.check tree).run s).reports = [] from hclean, List.filter_nil]
  · rw [← hresult, hagain.reports hscope, List.filter_eq_nil_iff]
    intro d hd
    simp [hnames d hd]

end Checker

namespace Context

/-- A tree is checked twice in a strict context, and the first check adds no diagnostics. No
name that the tree binds occurs in a type that a name is bound to before, in an annotation or
in the result of an operator. Then the second check finds the same type, and leaves the types
on all nodes and all bindings as they are. It adds one diagnostic for each binding in the tree,
in the order of visits, which says that a name is bound again and has the same text for the
type before and after. In a lenient context with the same bindings neither check adds
anything. -/
theorem check_again (ctx ctx' : Context) (ops : Operators) (tree : Node)
    (hstrict : ctx.strict = true) (hlenient : ctx'.strict = false)
    (hsame : ∀ name, ctx.lookup? name = ctx'.lookup? name)
    (hscope : ctx.scope.Within (· ∉ tree.boundNames))
    (htree : ∀ ty ∈ tree.declaredTys, ty.Within (· ∉ tree.boundNames))
    (hops : ops.Within (· ∉ tree.boundNames))
    (hpassed : (ctx.check ops tree).2.diagnostics = ctx.diagnostics) :
    let first := ctx.check ops tree
    let second := first.2.check ops first.1.item
    let first' := ctx'.check ops tree
    let second' := first'.2.check ops first'.1.item
    second.1.ty = first.1.ty ∧ second.1.item = first.1.item ∧
      (∀ name, second.2.lookup? name = first.2.lookup? name) ∧
      second.2.diagnostics = first.2.diagnostics ++ tree.boundNames.map (fun name =>
        .redeclared name (first.2.scope.text name) (first.2.scope.text name)) ∧
      first'.2.diagnostics = ctx'.diagnostics ∧ second'.2.diagnostics = first'.2.diagnostics := by
  intro first second first' second'
  have hclean : (((ctx.checker ops).check tree).run ctx.scope).reports = [] := by
    rw [diagnostics_check] at hpassed
    exact List.append_right_eq_self.1 hpassed
  obtain ⟨hresult, hagrees, hreports⟩ :=
    Checker.run_check_again (c := ctx.checker ops) hstrict tree hscope htree hops hclean
  have hfound : second.1 = first.1 := by
    rw [result_check, checker_check, scope_check, result_check, hresult]
  have hadded : second.2.diagnostics = first.2.diagnostics ++
      tree.boundNames.map first.2.scope.restated := by
    rw [diagnostics_check, checker_check, scope_check, result_check, hreports]
  refine ⟨congrArg Typed.ty hfound, congrArg Typed.item hfound, fun name => ?_, hadded, ?_⟩
  · rw [lookup?, lookup?, scope_check, checker_check, scope_check, result_check]
    exact hagrees name
  · have hchecker : ctx.checker ops = ⟨true, ops⟩ := by rw [checker, hstrict]
    have hchecker' : ctx'.checker ops = ⟨false, ops⟩ := by rw [checker, hlenient]
    rw [hchecker] at hclean hreports
    obtain ⟨hfirst', hsecond'⟩ := Checker.run_check_again_lenient ops tree hsame hclean (by
      rw [hreports, List.forall_mem_map]
      intro name _
      rfl)
    constructor
    · rw [diagnostics_check, hchecker', hfirst', List.append_nil]
    · rw [diagnostics_check, checker_check, scope_check, result_check, hchecker', hsecond',
        List.append_nil]

/-- The variables have an alias in their annotations, which stands for the same in both checks.
In the second check `x` is bound before its own value is visited. -/
theorem check_again_scores :
    let bindings := [("Score", Ty.number),
      ("sum", .function [.custom "Score", .custom "Score"] (.custom "Score"))]
    let ctx : Context := ⟨true, ⟨bindings⟩, [.notCallable "Nil"], 1⟩
    let ctx' : Context := ⟨false, ⟨bindings⟩, [], 0⟩
    let use (x : String) := Node.ofForm (.name x)
    let bind (x : String) (ty : Option Ty) (value : Node) :=
      Node.ofForm (.binding x ty (some value))
    let tree := Node.ofForm (.block [
      bind "x" (some (.custom "Score")) (.ofForm (.number .zero)),
      bind "y" none (.call (use "sum") [use "x", use "x"] false),
      bind "z" (some (.array (.custom "Score"))) (.ofForm (.array [use "x", use "y"]))])
    let first := ctx.check .builtin tree
    let second := first.2.check .builtin first.1.item
    let first' := ctx'.check .builtin tree
    let second' := first'.2.check .builtin first'.1.item
    first.2.diagnostics = [.notCallable "Nil"] ∧ second.1.item = first.1.item ∧
      (∀ name, second.2.lookup? name = first.2.lookup? name) ∧
      second.2.diagnostics = [.notCallable "Nil", .redeclared "x" "Number" "Number",
        .redeclared "y" "Number" "Number", .redeclared "z" "Array<Number>" "Array<Number>"] ∧
      second'.2.diagnostics = [] := by
  intro bindings ctx ctx' use bind tree first second first' second'
  have hnames : tree.boundNames = ["x", "y", "z"] := by
    simp [tree, bind, use, Node.call, Node.boundNames_ofForm, Form.children, Form.boundName?]
  have htys : tree.declaredTys = [.custom "Score", .array (.custom "Score")] := by
    simp [tree, bind, use, Node.call, Node.declaredTys_ofForm, Form.children, Form.declared?]
  have hscope : ctx.scope.Within (· ∉ tree.boundNames) := by
    rw [hnames]
    exact .of_bindings (by decide)
  have hpassed : (ctx.check .builtin tree).2.diagnostics = [.notCallable "Nil"] := by
    decide +kernel
  obtain ⟨-, hitem, hbound, hsecond, hfirst', hsecond'⟩ := check_again ctx ctx' .builtin tree
    rfl rfl (fun _ => rfl) hscope (by rw [htys, hnames]; decide) .builtin hpassed
  refine ⟨hpassed, hitem, hbound, ?_, hsecond'.trans hfirst'⟩
  rw [hsecond, hpassed, hnames]
  decide +kernel

end Context

end GradualScript
