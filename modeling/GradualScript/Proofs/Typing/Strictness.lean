import GradualScript.Proofs.Typing.Aliases
import GradualScript.Proofs.Typing.Audit

/-!
# Strict and lenient checks side by side

Two walks are parallel (`Walk.Parallel`) if from scopes that bind names alike they come to
results that are related, to scopes that again bind names alike, and to reports that are
related. Walks in a row are parallel if each is, provided that reports can be related piece
by piece (`Piecewise`). So two checks of a tree are parallel if what they do at its names is,
since everything else they do alike (`Checker.Match.check`).

This is used to compare a strict check with a lenient one. They find the same types and bind
the same names, and what the lenient one reports is what the strict one reports without the
diagnostics that concern names (`Context.check_strict_lenient`).
-/

set_option autoImplicit false

namespace GradualScript

/-! ## Scopes that bind names alike -/

/-- Whether two scopes bind the same names to the same types. -/
def Scope.Agrees (s t : Scope) : Prop := ∀ name, s.lookup? name = t.lookup? name

namespace Scope.Agrees

variable {s t : Scope}

/-- In scopes that bind names alike types are resolved alike. -/
theorem resolve_eq (h : s.Agrees t) : s.resolve = t.resolve := by
  funext ty
  apply resolve_congr
  intro name _
  exact h name

/-- Scopes that bind names alike do so still with a name bound to the same type in both. -/
theorem declare (h : s.Agrees t) (name : String) (ty : Ty) :
    (s.declare name ty).Agrees (t.declare name ty) := by
  intro other
  rw [lookup?_declare, lookup?_declare, h other]

end Scope.Agrees

/-! ## Parallel walks -/

/-- Whether lists of reports that are related may be put together from pieces that are. -/
structure Piecewise (D : List Diagnostic → List Diagnostic → Prop) : Prop where
  nil : D [] []
  append {ds es ds' es' : List Diagnostic} : D ds ds' → D es es' → D (ds ++ es) (ds' ++ es')

namespace Walk

variable {D : List Diagnostic → List Diagnostic → Prop} {α β γ δ : Type}

/-- Two walks from scopes that bind names alike: the results are related by `A`, the scopes
bind names alike again, and the reports are related by `D`. -/
structure Parallel (D : List Diagnostic → List Diagnostic → Prop) (A : α → β → Prop)
    (w : Walk α) (w' : Walk β) : Prop where
  result {s t : Scope} (h : s.Agrees t) : A (w.run s).result (w'.run t).result
  scope {s t : Scope} (h : s.Agrees t) : (w.run s).scope.Agrees (w'.run t).scope
  reports {s t : Scope} (h : s.Agrees t) : D (w.run s).reports (w'.run t).reports

/-- Walks that only give results are parallel if the results are related. -/
theorem Parallel.pure (hD : Piecewise D) {A : α → β → Prop} {a : α} {b : β} (h : A a b) :
    Parallel D A (Pure.pure a) (Pure.pure b) where
  result _ := h
  scope hs := hs
  reports _ := hD.nil

/-- Walks that go on from parallel ones are parallel, if they are so from any related results. -/
theorem Parallel.bind (hD : Piecewise D) {A : α → β → Prop} {B : γ → δ → Prop} {w : Walk α}
    {w' : Walk β} {f : α → Walk γ} {f' : β → Walk δ} (hw : Parallel D A w w')
    (hf : ∀ a b, A a b → Parallel D B (f a) (f' b)) : Parallel D B (w >>= f) (w' >>= f') where
  result hs := (hf _ _ (hw.result hs)).result (hw.scope hs)
  scope hs := (hf _ _ (hw.result hs)).scope (hw.scope hs)
  reports hs := hD.append (hw.reports hs) ((hf _ _ (hw.result hs)).reports (hw.scope hs))

end Walk

/-! ## Parallel checks -/

/-- Whether a diagnostic is about a name that is not bound, or is bound again. -/
def Diagnostic.concernsName (d : Diagnostic) : Bool :=
  d.fault == .unresolved || d.fault == .redeclared

/-- Reports of which none concerns a name. -/
def Nameless (ds : List Diagnostic) : Prop := ∀ d ∈ ds, d.concernsName = false

/-- Reports of which none counts as a fault of names are about no names. -/
theorem nameless_of_tally {ds : List Diagnostic} (hunresolved : tally ds .unresolved = 0)
    (hredeclared : tally ds .redeclared = 0) : Nameless ds := by
  intro d hd
  have hfault : ∀ fault, tally ds fault = 0 → (d.fault == fault) = false := by
    intro fault hzero
    simpa using List.countP_eq_zero.1 hzero d hd
  rw [Diagnostic.concernsName, hfault _ hunresolved, hfault _ hredeclared, Bool.or_false]

/-- A report of an item in a constructor is about types. -/
theorem nameless_expect? (expected : Option Ty) (actual : Ty) :
    Nameless (Ty.expect? expected actual) := by
  cases expected with
  | none => exact fun _ h => absurd h List.not_mem_nil
  | some expected => exact nameless_of_tally (by simp [Ty.expect?]) (by simp [Ty.expect?])

/-! Verdicts look at types alone, so none of what they report concerns a name. -/

/-- What is reported of an operation on two operands is about types. -/
theorem nameless_ofBinary (ops : Operators) (op : BinaryOp) (left right : Ty) :
    Nameless (Verdict.ofBinary ops op left right).reports :=
  nameless_of_tally (tally_ofBinary .unresolved ops op left right)
    (tally_ofBinary .redeclared ops op left right)

/-- What is reported of an operation on one operand is about types. -/
theorem nameless_ofUnary (ops : Operators) (op : UnaryOp) (operand : Ty) :
    Nameless (Verdict.ofUnary ops op operand).reports :=
  nameless_of_tally (tally_ofUnary .unresolved ops op operand)
    (tally_ofUnary .redeclared ops op operand)

/-- What is reported of a call is about types and the number of arguments. -/
theorem nameless_ofCall (callee : Ty) (arguments : List Ty) (selfCall : Bool) :
    Nameless (Verdict.ofCall callee arguments selfCall).reports :=
  nameless_of_tally (tally_ofCall .unresolved callee arguments selfCall)
    (tally_ofCall .redeclared callee arguments selfCall)

/-- What is reported of an index is about types. -/
theorem nameless_ofIndex (target key : Ty) : Nameless (Verdict.ofIndex target key).reports :=
  nameless_of_tally (tally_ofIndex .unresolved target key) (tally_ofIndex .redeclared target key)

/-- What is reported of an annotation and a value is about types. -/
theorem nameless_ofBinding (declared value : Option Ty) :
    Nameless (Verdict.ofBinding declared value).reports := by
  refine nameless_of_tally ?_ ?_ <;> rw [tally_ofBinding] <;>
    cases declared <;> cases value <;> rfl

namespace Checker

open Walk (Parallel)

/-- Whether two checkers go by the same rules, and what they report is related: where it
concerns no names because it is the same, and where it concerns names in its own right. -/
structure Match (D : List Diagnostic → List Diagnostic → Prop) (c c' : Checker) : Prop where
  piecewise : Piecewise D
  operators : c.operators = c'.operators
  nameless {ds : List Diagnostic} : Nameless ds → D ds ds
  unbound (s : Scope) (name : String) : D (c.unboundReports s name) (c'.unboundReports s name)
  rebind (s : Scope) (name : String) (ty : Ty) :
    D (c.rebindReports s name ty) (c'.rebindReports s name ty)

namespace Match

variable {D : List Diagnostic → List Diagnostic → Prop} {c c' : Checker}

/-- A verdict that is about no names is settled alike by both checks. -/
theorem settle (h : Match D c c') {verdict : Verdict} (hnameless : Nameless verdict.reports) :
    Parallel D Eq (Walk.settle verdict) (Walk.settle verdict) where
  result _ := rfl
  scope hs := hs
  reports _ := h.nameless hnameless

/-- Reports that are about no names are reported alike by both checks. -/
theorem report (h : Match D c c') {ds : List Diagnostic} (hnameless : Nameless ds) :
    Parallel D Eq (Walk.report ds) (Walk.report ds) where
  result _ := rfl
  scope hs := hs
  reports _ := h.nameless hnameless

/-- A use of a name finds the same type in both checks, and is reported as it has to be. -/
theorem lookupName (h : Match D c c') (name : String) :
    Parallel D Eq (c.lookupName name) (c'.lookupName name) where
  result hs := by rw [run_lookupName, run_lookupName, hs name, hs.resolve_eq]
  scope hs := by
    rw [run_lookupName, run_lookupName]
    exact hs
  reports {s t} hs := by
    have hsame : c'.unboundReports t name = c'.unboundReports s name := by
      rw [unboundReports, unboundReports, hs name]
    rw [run_lookupName, run_lookupName, hsame]
    exact h.unbound s name

/-- A binding binds the same type in both checks, and is reported as it has to be. -/
theorem bindName (h : Match D c c') (name : String) (declared value : Option Ty) :
    Parallel D Eq (c.bindName name declared value) (c'.bindName name declared value) where
  result _ := rfl
  scope hs := by
    rw [run_bindName, run_bindName, hs.resolve_eq]
    exact hs.declare name _
  reports {s t} hs := by
    have hsame (ty : Ty) : c'.rebindReports t name ty = c'.rebindReports s name ty := by
      rw [rebindReports, rebindReports, hs name]
    rw [run_bindName, run_bindName, hs.resolve_eq]
    dsimp only
    rw [hsame]
    exact h.piecewise.append (h.nameless (nameless_ofBinding _ _)) (h.rebind s name _)

/-! ### Several trees -/

/-- The checks of a list of trees are parallel if those of each are. -/
theorem each (h : Match D c c') {items : List Node}
    (hitems : ∀ node ∈ items, Parallel D Eq (c.check node) (c'.check node)) :
    Parallel D Eq (c.checkEach items) (c'.checkEach items) := by
  induction items with
  | nil => exact .pure h.piecewise rfl
  | cons node rest ih =>
    rw [checkEach, checkEach]
    apply (hitems node List.mem_cons_self).bind h.piecewise
    rintro first _ rfl
    apply (ih fun other hother => hitems other (List.mem_cons_of_mem _ hother)).bind h.piecewise
    rintro others _ rfl
    exact .pure h.piecewise rfl

/-- The checks of the items of a constructor are parallel if those of each are. -/
theorem alike (h : Match D c c') {items : List Node}
    (hitems : ∀ node ∈ items, Parallel D Eq (c.check node) (c'.check node))
    (expected : Option Ty) :
    Parallel D Eq (c.checkAlike expected items) (c'.checkAlike expected items) := by
  induction items generalizing expected with
  | nil => exact .pure h.piecewise rfl
  | cons node rest ih =>
    rw [checkAlike, checkAlike]
    apply (hitems node List.mem_cons_self).bind h.piecewise
    rintro first _ rfl
    apply (h.report (nameless_expect? expected first.ty)).bind h.piecewise
    rintro _ _ -
    apply (ih (fun other hother => hitems other (List.mem_cons_of_mem _ hother)) _).bind
      h.piecewise
    rintro others _ rfl
    exact .pure h.piecewise rfl

/-- The checks of the arguments of a call are parallel if those of the node are that holds
them. -/
theorem arguments {node : Node}
    (hnode : Parallel D Eq (c.check node) (c'.check node)) :
    Parallel D Eq (c.checkArguments node) (c'.checkArguments node) where
  result hs := by
    rw [run_checkArguments, run_checkArguments]
    dsimp only
    rw [hnode.result hs]
  scope hs := by
    rw [run_checkArguments, run_checkArguments]
    exact hnode.scope hs
  reports hs := by
    rw [run_checkArguments, run_checkArguments]
    exact hnode.reports hs

/-! ### Trees -/

/-- A check of a form is parallel if those of its children are. -/
theorem infer (h : Match D c c') (form : Form)
    (hchildren : ∀ child ∈ form.children, Parallel D Eq (c.check child) (c'.check child)) :
    Parallel D Eq (c.infer form) (c'.infer form) := by
  -- Each step of a form is parallel, and gives the same to both checks, so that the rest can be
  -- taken to continue from one result.
  have hp := h.piecewise
  cases form with
  | number | text | boolean | nil => exact .pure hp rfl
  | name x =>
    rw [Checker.infer, Checker.infer]
    apply (h.lookupName x).bind hp
    rintro ty _ rfl
    exact .pure hp rfl
  | binary op left right =>
    rw [Checker.infer, Checker.infer, h.operators]
    apply (hchildren left (by simp [Form.children])).bind hp
    rintro l _ rfl
    apply (hchildren right (by simp [Form.children])).bind hp
    rintro r _ rfl
    apply (h.settle (nameless_ofBinary _ op l.ty r.ty)).bind hp
    rintro ty _ rfl
    exact .pure hp rfl
  | unary op operand =>
    rw [Checker.infer, Checker.infer, h.operators]
    apply (hchildren operand (by simp [Form.children])).bind hp
    rintro o _ rfl
    apply (h.settle (nameless_ofUnary _ op o.ty)).bind hp
    rintro ty _ rfl
    exact .pure hp rfl
  | list items =>
    rw [Checker.infer, Checker.infer]
    apply (h.each hchildren).bind hp
    rintro checked _ rfl
    exact .pure hp rfl
  | call callee arguments selfCall =>
    rw [Checker.infer, Checker.infer]
    apply (hchildren callee (by simp [Form.children])).bind hp
    rintro f _ rfl
    apply (Match.arguments (hchildren arguments (by simp [Form.children]))).bind hp
    rintro args _ rfl
    apply (h.settle (nameless_ofCall f.ty args.2 selfCall)).bind hp
    rintro ty _ rfl
    exact .pure hp rfl
  | group inner =>
    rw [Checker.infer, Checker.infer]
    apply (hchildren inner (by simp [Form.children])).bind hp
    rintro i _ rfl
    exact .pure hp rfl
  | statement expression =>
    rw [Checker.infer, Checker.infer]
    apply (hchildren expression (by simp [Form.children])).bind hp
    rintro e _ rfl
    exact .pure hp rfl
  | block items =>
    rw [Checker.infer, Checker.infer]
    apply (h.each hchildren).bind hp
    rintro checked _ rfl
    exact .pure hp rfl
  | binding x declared value =>
    cases value with
    | none =>
      rw [Checker.infer, Checker.infer]
      apply (h.bindName x declared none).bind hp
      rintro _ _ -
      exact .pure hp rfl
    | some value =>
      rw [Checker.infer, Checker.infer]
      apply (hchildren value (by simp [Form.children])).bind hp
      rintro v _ rfl
      apply (h.bindName x declared (some v.ty)).bind hp
      rintro _ _ -
      exact .pure hp rfl
  | array items =>
    rw [Checker.infer, Checker.infer]
    apply (h.alike hchildren none).bind hp
    rintro checked _ rfl
    exact .pure hp rfl
  | table pairs =>
    simp only [Form.children, List.forall_mem_append] at hchildren
    rw [Checker.infer, Checker.infer]
    simp only [checkSide_key, checkSide_value]
    apply (h.alike hchildren.1 none).bind hp
    rintro keys _ rfl
    apply (h.alike hchildren.2 none).bind hp
    rintro values _ rfl
    exact .pure hp rfl
  | index target key =>
    rw [Checker.infer, Checker.infer]
    apply (hchildren target (by simp [Form.children])).bind hp
    rintro t _ rfl
    apply (hchildren key (by simp [Form.children])).bind hp
    rintro k _ rfl
    apply (h.settle (nameless_ofIndex t.ty k.ty)).bind hp
    rintro ty _ rfl
    exact .pure hp rfl

/-- Checkers that match check every tree in parallel. -/
theorem check (h : Match D c c') (node : Node) :
    Parallel D Eq (c.check node) (c'.check node) := by
  induction node using Node.induction with
  | step form location ty ih =>
    rw [Checker.check, Checker.check]
    apply (h.infer form ih).bind h.piecewise
    rintro inferred _ rfl
    exact .pure h.piecewise rfl

end Match

/-- What a lenient check reports at names is what a strict one reports less what concerns
names. -/
theorem match_strict_lenient (ops : Operators) :
    Match (fun ds ds' => ds' = ds.filter fun d => !d.concernsName) ⟨true, ops⟩ ⟨false, ops⟩ where
  piecewise := by
    refine ⟨rfl, ?_⟩
    rintro ds es _ _ rfl rfl
    exact (List.filter_append ds es).symm
  operators := rfl
  nameless hnameless := by
    symm
    rw [List.filter_eq_self]
    intro d hd
    rw [hnameless d hd]
    rfl
  unbound s name := by
    unfold unboundReports
    cases s.lookup? name <;> rfl
  rebind s name ty := by
    unfold rebindReports
    cases s.lookup? name <;> rfl

end Checker

namespace Context

/-- A tree is checked in two contexts that bind the same names to the same types, of which
one is strict and the other one lenient, with the same operators. Both checks find the same
type, write the same types on all nodes and leave the same bindings. The lenient one adds the
diagnostics that the strict one adds, in the same order, except for those about names that
are not bound or are bound again. -/
theorem check_strict_lenient (ctx ctx' : Context) (ops : Operators) (tree : Node)
    (hstrict : ctx.strict = true) (hlenient : ctx'.strict = false)
    (hsame : ∀ name, ctx.lookup? name = ctx'.lookup? name) :
    let strict := ctx.check ops tree
    let lenient := ctx'.check ops tree
    strict.1.ty = lenient.1.ty ∧ strict.1.item = lenient.1.item ∧
      (∀ name, strict.2.lookup? name = lenient.2.lookup? name) ∧
      ∃ added, strict.2.diagnostics = ctx.diagnostics ++ added ∧
        lenient.2.diagnostics = ctx'.diagnostics ++ added.filter fun d => !d.concernsName := by
  have hparallel := (Checker.match_strict_lenient ops).check tree
  have hchecker : ctx.checker ops = ⟨true, ops⟩ := by rw [checker, hstrict]
  have hchecker' : ctx'.checker ops = ⟨false, ops⟩ := by rw [checker, hlenient]
  have hresult := hparallel.result hsame
  intro strict lenient
  have hfound : strict.1 = lenient.1 := by
    rw [result_check, result_check, hchecker, hchecker']
    exact hresult
  refine ⟨congrArg Typed.ty hfound, congrArg Typed.item hfound, ?_, _, diagnostics_check _ _ _, ?_⟩
  · intro name
    rw [lookup?, lookup?, scope_check, scope_check, hchecker, hchecker']
    exact hparallel.scope hsame name
  · rw [diagnostics_check, hchecker, hchecker']
    exact congrArg _ (hparallel.reports hsame)

/-- A variable that is declared twice and a name that is not bound are reported by the strict
check only. Both checks report that the later type of the variable does not fit. -/
theorem check_strict_lenient_twice :
    let ctx : Context := ⟨true, ⟨[("f", .number), ("g", .string)]⟩, [], 0⟩
    let ctx' : Context := ⟨false, ⟨[("g", .string), ("f", .number)]⟩, [.notCallable "Nil"], 1⟩
    let bind (value : Form) := Node.ofForm (.binding "x" none (some (.ofForm value)))
    let sum (a b : String) := Node.ofForm (.binary .add (.ofForm (.name a)) (.ofForm (.name b)))
    let tree := Node.ofForm
      (.block [bind (.number .zero), bind (.name "g"), sum "u" "f", sum "x" "f"])
    let strict := ctx.check .builtin tree
    let lenient := ctx'.check .builtin tree
    (∀ name, ctx.lookup? name = ctx'.lookup? name) ∧
      strict.1.item = lenient.1.item ∧
      (∀ name, strict.2.lookup? name = lenient.2.lookup? name) ∧
      strict.2.diagnostics = [.redeclared "x" "Number" "String", .unresolved "u",
        .operator "+" "String and Number"] ∧
      lenient.2.diagnostics = [.notCallable "Nil", .operator "+" "String and Number"] := by
  intro ctx ctx' bind sum tree strict lenient
  have hsame : ∀ name, ctx.lookup? name = ctx'.lookup? name := by
    intro name
    by_cases hf : name = "f"
    · subst hf
      rfl
    · by_cases hg : name = "g"
      · subst hg
        rfl
      · have hf' : (name == "f") = false := by simp [hf]
        have hg' : (name == "g") = false := by simp [hg]
        simp [lookup?, Scope.lookup?, ctx, ctx', List.lookup_cons, hf', hg']
  obtain ⟨-, hitem, hbound, added, hadded, hkept⟩ :=
    check_strict_lenient ctx ctx' .builtin tree rfl rfl hsame
  have hreports : strict.2.diagnostics = [.redeclared "x" "Number" "String", .unresolved "u",
    .operator "+" "String and Number"] := by decide +kernel
  refine ⟨hsame, hitem, hbound, hreports, ?_⟩
  obtain rfl := hadded.symm.trans hreports
  exact hkept

end Context

end GradualScript
