import GradualScript.Proofs.Typing.FadedForms
import GradualScript.Proofs.Typing.Runs

/-!
# A node that becomes unknown

What a lenient check reports after one node of a tree without faults has been replaced by
a name that is not bound anywhere.

The type of the name is not known, and the types above it fade with it. This is followed
from children to forms (`Checker.Fades.form`), first for a tree that stays as it is in a
scope that fades (`Checker.fades_self`), then along the path to the node that is replaced
(`Checker.fades_put`).
-/

set_option autoImplicit false

namespace GradualScript

variable {P : Ty → Prop} {Q : Diagnostic → Prop}

/-- Whether one check ends like another one with types that have faded, reporting nothing
but what satisfies `Q`. -/
structure Outcome.FadesTo (P : Ty → Prop) (Q : Diagnostic → Prop)
    (o o' : Outcome (Typed Node)) : Prop where
  ty : o.result.ty.FadesTo P o'.result.ty
  scope : o.scope.FadesTo P o'.scope
  reports : ∀ d ∈ o'.reports, Q d

namespace Checker

/-- Whether the check of a node that has nothing to report from some scope fades to the
check of another node, from whatever the scope fades to. -/
def Fades (P : Ty → Prop) (Q : Diagnostic → Prop) (s : Scope) (node node' : Node) : Prop :=
  ((lenient.check node).run s).reports = [] → ∀ t : Scope, s.FadesTo P t →
    ((lenient.check node).run s).FadesTo P Q ((lenient.check node').run t)

/-- Whether the arguments that a node stands for fade along with it. -/
def FadesArguments (P : Ty → Prop) (s : Scope) (node node' : Node) : Prop :=
  ((lenient.check node).run s).reports = [] → ∀ t : Scope, s.FadesTo P t →
    Ty.FadesEach P ((lenient.check node).run s).result.item.argumentTys
      ((lenient.check node').run t).result.item.argumentTys

/-- Whether nodes fade one by one, each from the scope after those before it. -/
inductive FadesEach (P : Ty → Prop) (Q : Diagnostic → Prop) :
    Scope → List Node → List Node → Prop where
  | nil {s : Scope} : FadesEach P Q s [] []
  | cons {s : Scope} {node node' : Node} {rest rest' : List Node}
    (hnode : Fades P Q s node node')
    (hrest : FadesEach P Q ((lenient.check node).run s).scope rest rest') :
    FadesEach P Q s (node :: rest) (node' :: rest')

/-- If nodes fade one by one and nothing was reported of them, their types fade, so does the scope
after them, and what is reported is allowed for. -/
theorem FadesEach.run {s t : Scope} {items items' : List Node} (h : FadesEach P Q s items items')
    (hclean : ((lenient.checkEach items).run s).reports = []) (hst : s.FadesTo P t) :
    Ty.FadesEach P ((((lenient.checkEach items).run s).result.map (·.item)).map Node.written)
        ((((lenient.checkEach items').run t).result.map (·.item)).map Node.written) ∧
      ((lenient.checkEach items).run s).scope.FadesTo P ((lenient.checkEach items').run t).scope ∧
      ∀ d ∈ ((lenient.checkEach items').run t).reports, Q d := by
  induction items generalizing s t items' with
  | nil =>
    cases h with
    | nil => exact ⟨.nil, hst, by simp⟩
  | cons node rest ih =>
    cases h with
    | cons hnode hrest =>
      rw [run_checkEach_cons] at hclean ⊢
      rw [run_checkEach_cons]
      obtain ⟨hfirst, hothers⟩ := List.append_eq_nil_iff.1 hclean
      obtain ⟨hty, hscope, hreports⟩ := hnode hfirst t hst
      obtain ⟨htys, hscopes, hrestReports⟩ := ih hrest hothers hscope
      refine ⟨?_, hscopes, ?_⟩
      · simp only [List.map_cons, written_check]
        exact .cons hty htys
      · intro d hd
        rcases List.mem_append.1 hd with hd | hd
        · exact hreports d hd
        · exact hrestReports d hd

/-- Nodes that fade one by one become as many nodes. -/
theorem FadesEach.length_eq {s : Scope} {items items' : List Node}
    (h : FadesEach P Q s items items') : items.length = items'.length := by
  induction items generalizing s items' with
  | nil => cases h; rfl
  | cons node rest ih =>
    cases h with
    | cons _ hrest => exact congrArg (· + 1) (ih hrest)

/-- If the parts of a call fade, so do the types of its arguments. -/
theorem FadesEach.arguments {s t : Scope} {form : Form} {nodes' : List Node}
    (hnodes : FadesEach P Q s form.children nodes')
    (harguments : ∀ callee arguments selfCall, form = .call callee arguments selfCall →
      ∀ arguments', nodes'[1]? = some arguments' →
        FadesArguments P ((lenient.check callee).run s).scope arguments arguments')
    (hclean : ((lenient.checkEach form.children).run s).reports = []) (hst : s.FadesTo P t)
    (hcall : form.isCall = true) (checked checked' : Node)
    (hchecked : (((lenient.checkEach form.children).run s).result.map (·.item))[1]? = some checked)
    (hchecked' : (((lenient.checkEach nodes').run t).result.map (·.item))[1]? = some checked') :
    Ty.FadesEach P checked.argumentTys checked'.argumentTys := by
  cases form with
  | call callee arguments selfCall =>
    rw [Form.children] at hnodes hclean hchecked
    cases hnodes with
    | @cons _ _ callee' _ _ hcallee hrest =>
      cases hrest with
      | @cons _ _ arguments' _ _ _ hnone =>
      cases hnone
      simp only [run_checkEach_cons, List.append_eq_nil_iff] at hclean
      simp only [run_checkEach_cons, List.map_cons] at hchecked hchecked'
      obtain rfl := Option.some.inj hchecked
      obtain rfl := Option.some.inj hchecked'
      exact harguments callee arguments selfCall rfl arguments' rfl hclean.2.1 _
        (hcallee hclean.1 t hst).scope
  | _ => simp [Form.isCall] at hcall

/-- A form fades with its children, and, if it is a call, with its arguments. -/
theorem Fades.form (hQ : Parting P Q) {s : Scope} (form : Form) {nodes' : List Node}
    (hnodes : FadesEach P Q s form.children nodes')
    (harguments : ∀ callee arguments selfCall, form = .call callee arguments selfCall →
      ∀ arguments', nodes'[1]? = some arguments' →
        FadesArguments P ((lenient.check callee).run s).scope arguments arguments')
    (location : Location) (ty ty' : Option Ty) :
    Fades P Q s ⟨form, location, ty⟩ ⟨form.withChildren nodes', location, ty'⟩ ∧
      FadesArguments P s ⟨form, location, ty⟩ ⟨form.withChildren nodes', location, ty'⟩ := by
  suffices hboth : ((lenient.check ⟨form, location, ty⟩).run s).reports = [] →
      ∀ t : Scope, s.FadesTo P t →
      ((lenient.check ⟨form, location, ty⟩).run s).FadesTo P Q
          ((lenient.check ⟨form.withChildren nodes', location, ty'⟩).run t) ∧
        Ty.FadesEach P ((lenient.check ⟨form, location, ty⟩).run s).result.item.argumentTys
          ((lenient.check ⟨form.withChildren nodes', location, ty'⟩).run t).result.item.argumentTys
    from ⟨fun hclean t hst => (hboth hclean t hst).1, fun hclean t hst => (hboth hclean t hst).2⟩
  intro hclean t hst
  rw [run_check] at hclean
  rw [run_check, run_check]
  dsimp only at hclean ⊢
  obtain ⟨hitem, hty, hscope, hperm⟩ := lenient.infer_settles form s
  obtain ⟨hitem', hty', hscope', hperm'⟩ := lenient.infer_settles (form.withChildren nodes') t
  have hlength' : nodes'.length = form.children.length := hnodes.length_eq.symm
  rw [Form.children_withChildren form hlength'] at hitem' hty' hscope' hperm'
  rw [Form.withChildren_withChildren form hlength' (by simpa using hlength')] at hitem'
  rw [hclean] at hperm
  -- Reports come in another order, but none are none in any order.
  obtain ⟨hcleanChildren, hcleanOwn⟩ := List.append_eq_nil_iff.1 hperm.symm.eq_nil
  obtain ⟨htys, hscopes, hreports⟩ := hnodes.run hcleanChildren hst
  rw [hitem] at hty hscope hcleanOwn
  rw [hitem'] at hty' hscope' hperm'
  obtain ⟨hfadedTy, hfadedScope, hfadedReports⟩ := form.faded hQ hscopes (by simp) htys
    (hnodes.arguments harguments hcleanChildren hst) hcleanOwn
  have hown : ((lenient.infer form).run s).result.ty.FadesTo P
      ((lenient.infer (form.withChildren nodes')).run t).result.ty := by
    rw [hty, hty']
    exact hfadedTy
  refine ⟨⟨hown, ?_, ?_⟩, ?_⟩
  · rw [hscope, hscope']
    exact hfadedScope
  · intro d hd
    rcases List.mem_append.1 (hperm'.mem_iff.1 hd) with hd | hd
    · exact hreports d hd
    · exact hfadedReports d hd
  · rw [Node.argumentTys_eq, Node.argumentTys_eq]
    dsimp only
    rw [hitem, hitem', Form.isList_withChildren, Form.isList_withChildren,
      Form.children_withChildren form (by simp),
      Form.children_withChildren form (by simpa using hlength')]
    split
    · exact htys
    · exact .cons hown .nil

/-- Nodes that stay as they are fade one by one, if each does in any scope. -/
theorem FadesEach.of_self {items : List Node} (h : ∀ item ∈ items, ∀ s, Fades P Q s item item)
    (s : Scope) : FadesEach P Q s items items := by
  induction items generalizing s with
  | nil => exact .nil
  | cons item rest ih =>
    exact .cons (h item List.mem_cons_self s)
      (ih (fun other hother => h other (List.mem_cons_of_mem _ hother)) _)

/-- A tree that stays as it is fades with the scope. -/
theorem fades_self (hQ : Parting P Q) (node : Node) (s : Scope) :
    Fades P Q s node node ∧ FadesArguments P s node node := by
  induction node using Node.induction generalizing s with
  | step form location ty ih =>
    have hnodes : FadesEach P Q s form.children form.children :=
      .of_self (fun item hitem t => (ih item hitem t).1) s
    have harguments : ∀ callee arguments selfCall, form = .call callee arguments selfCall →
        ∀ arguments', form.children[1]? = some arguments' →
        FadesArguments P ((lenient.check callee).run s).scope arguments arguments' := by
      intro callee arguments selfCall hcall arguments' harguments
      subst hcall
      obtain rfl := Option.some.inj harguments
      exact (ih arguments (by simp [Form.children]) _).2
    have hform := Fades.form hQ form hnodes harguments location ty ty
    rw [Form.withChildren_children] at hform
    exact hform

/-- Nodes of which one is replaced fade one by one, if that one does. -/
theorem fadesEach_modify (hQ : Parting P Q) (f : Node → Node) (items : List Node) (i : Nat)
    (s : Scope) (hitem : ∀ item, items[i]? = some item →
      Fades P Q ((lenient.checkEach (items.take i)).run s).scope item (f item)) :
    FadesEach P Q s items (items.modify i f) := by
  induction items generalizing i s with
  | nil => cases i <;> exact .nil
  | cons item rest ih =>
    cases i with
    | zero => exact .cons (hitem item rfl) (.of_self (fun other _ t => (fades_self hQ other t).1) _)
    | succ i =>
      apply FadesEach.cons (fades_self hQ item s).1
      apply ih
      intro other hother
      have hfades := hitem other hother
      rw [List.take_succ_cons, run_checkEach_cons] at hfades
      exact hfades

/-- Nothing is known of a name that is not bound, and a lenient check does not report it. -/
theorem run_check_unbound {s : Scope} {name : String} (h : s.lookup? name = none) :
    (lenient.check (.ofForm (.name name))).run s =
      ⟨⟨⟨.name name, .start, some .any⟩, .any⟩, s, []⟩ := by
  simp [Node.ofForm, check, infer, run_lookupName, unboundReports, h, lenient]

/-- Whether a check of a node from some scope comes, at the end of a path, to a node that
can become a name: one that binds nothing and does not hold the arguments of a call. The
type is the one that is found for it. Neither the scope nor the node binds the name. -/
structure Spot (name : String) (ty : Ty) (s : Scope) (node : Node) (path : List Nat) : Prop where
  unbinding : ∃ sub, node.at? path = some sub ∧ sub.boundNames = []
  place : node.holdsArguments path = false
  fresh : name ∉ node.boundNames
  unbound : s.lookup? name = none
  typed : (((lenient.check node).run s).result.item.at? path).map Node.written = some ty

/-- The spot is one of a child too, in the scope that the children before it leave. -/
theorem Spot.child {name : String} {ty : Ty} {s : Scope} {form : Form} {location : Location}
    {nodeTy : Option Ty} {i : Nat} {path : List Nat}
    (h : Spot name ty s ⟨form, location, nodeTy⟩ (i :: path)) :
    ∃ child, form.children[i]? = some child ∧
      Spot name ty ((lenient.checkEach (form.children.take i)).run s).scope child path := by
  obtain ⟨⟨sub, hat, hsub⟩, hplace, hfresh, hunbound, htyped⟩ := h
  obtain ⟨child, hchild, hatChild⟩ := Option.bind_eq_some_iff.1 hat
  rw [Node.boundNames_eq, List.mem_append, not_or] at hfresh
  have hfreshChild (item : Node) (hitem : item ∈ form.children) : name ∉ item.boundNames := by
    intro hname
    exact hfresh.1 (List.mem_flatMap_of_mem hitem hname)
  refine ⟨child, hchild, ⟨sub, hatChild, hsub⟩, ?_, ?_, ?_, ?_⟩
  · cases path with
    | nil => rfl
    | cons j path => simpa [Node.holdsArguments, hchild] using hplace
  · exact hfreshChild child (List.mem_of_getElem? hchild)
  · -- The children before this one do not bind the name either.
    apply lenient.checkEach_keeps (I := (·.lookup? name = none)) _ _ s hunbound
    intro item hitem t ht
    rw [lenient.lookup?_check item (hfreshChild item (List.mem_of_mem_take hitem)) t]
    exact ht
  · have hchecked := lenient.getElem?_checkEach form.children s i
    rw [hchild, Option.map_some] at hchecked
    rw [Node.at?, lenient.children_check, List.getElem?_map, hchecked] at htyped
    exact htyped

/-- A node that binds nothing fades to a name that is not bound. -/
theorem Spot.fades_name {name : String} {ty : Ty} {s : Scope} {node : Node}
    (h : Spot name ty s node []) (hty : P ty) : Fades P Q s node (.ofForm (.name name)) := by
  obtain ⟨⟨sub, hat, hsub⟩, -, -, hunbound, htyped⟩ := h
  obtain rfl : node = sub := Option.some.inj hat
  intro _ t hst
  have hfound : ((lenient.check node).run s).result.ty = ty := by
    simpa [Node.at?] using htyped
  rw [run_check_unbound (hst.unbound hunbound)]
  refine ⟨.unknown (hfound ▸ hty), ?_, by simp⟩
  rw [lenient.scope_check node hsub]
  exact hst

/-- A tree in which a node becomes a name that is not bound fades, if the type that was
found for the node may become unknown. -/
theorem fades_put (hQ : Parting P Q) {name : String} {ty : Ty} (hty : P ty) (path : List Nat)
    (node : Node) (s : Scope) (h : Spot name ty s node path) :
    Fades P Q s node (node.put path (.ofForm (.name name))) ∧
      (path ≠ [] → FadesArguments P s node (node.put path (.ofForm (.name name)))) := by
  induction path generalizing node s with
  | nil => exact ⟨h.fades_name hty, fun hne => absurd rfl hne⟩
  | cons i path ih =>
    obtain ⟨form, location, nodeTy⟩ := node
    obtain ⟨child, hchild, hspot⟩ := h.child
    obtain ⟨hfades, hfadesArguments⟩ := ih child _ hspot
    have hnodes : FadesEach P Q s form.children
        (form.children.modify i fun item => item.put path (.ofForm (.name name))) := by
      apply fadesEach_modify hQ
      intro item hitem
      obtain rfl : child = item := Option.some.inj (hchild.symm.trans hitem)
      exact hfades
    have harguments : ∀ callee arguments selfCall, form = .call callee arguments selfCall →
        ∀ arguments', (form.children.modify i fun item =>
          item.put path (.ofForm (.name name)))[1]? = some arguments' →
        FadesArguments P ((lenient.check callee).run s).scope arguments arguments' := by
      intro callee arguments selfCall hcall arguments' harguments
      subst hcall
      -- The path leads into the callee or into the arguments, but does not end at these.
      rcases i with _ | _ | i
      · obtain rfl := Option.some.inj harguments
        exact (fades_self hQ arguments _).2
      · obtain rfl := Option.some.inj harguments
        obtain rfl := Option.some.inj hchild
        apply hfadesArguments
        intro hpath
        have hplace := h.place
        rw [hpath] at hplace
        simp [Node.holdsArguments, Form.isCall] at hplace
      · simp [Form.children] at hchild
    have hform := Fades.form hQ form hnodes harguments location nodeTy nodeTy
    exact ⟨hform.1, fun _ => hform.2⟩

end Checker

/-! ## What is reported then -/

/-- A diagnostic about two types that were accepted until parts of them became unknown. -/
def Diagnostic.BlamesUnknown (d : Diagnostic) : Prop :=
  ∃ e a e' a' : Ty, e.accepts a = true ∧ e.FadesTo (fun _ => True) e' ∧
    a.FadesTo (fun _ => True) a' ∧ e'.accepts a' = false ∧
    (d = .mismatch e'.render a'.render ∨
      ∃ op : BinaryOp, (op = .eq ∨ op = .ne) ∧
        d = .operator op.symbol (e'.render ++ " and " ++ a'.render))

/-- Whatever becomes unknown, what is reported blames types that were accepted before. -/
theorem parting_all : Parting (fun _ => True) Diagnostic.BlamesUnknown where
  stable := ⟨fun _ _ => trivial, fun _ => trivial, fun _ => trivial⟩
  boolean := trivial
  mismatch h he ha hfits := ⟨_, _, _, _, h, he, ha, hfits, .inl rfl⟩
  unequal hop h he ha hfits := ⟨_, _, _, _, h, he, ha, hfits, .inr ⟨_, hop, rfl⟩⟩

/-- Nothing is reported if only primitive types become unknown. -/
theorem parting_primitive : Parting (fun a => a.isPrimitive = true) fun _ => False where
  stable := Ty.stable_isPrimitive
  boolean := rfl
  mismatch h he ha hfits := by simp [Ty.Pales.accepts h he ha] at hfits
  unequal _ h he ha hfits := by simp [Ty.Pales.accepts h he ha] at hfits

namespace Context

/-- Whether a tree without faults has a node at the end of a path that can become a name:
one that binds nothing and does not hold the arguments of a call, in a tree that does not
bind the name. The type is the one that is found for the node. -/
structure Replaceable (ctx : Context) (name : String) (tree : Node) (path : List Nat)
    (ty : Ty) : Prop where
  clean : (ctx.check .builtin tree).2.diagnostics = ctx.diagnostics
  unbinding : ∃ sub, tree.at? path = some sub ∧ sub.boundNames = []
  place : tree.holdsArguments path = false
  fresh : name ∉ tree.boundNames
  typed : ((ctx.check .builtin tree).1.item.at? path).map Node.written = some ty

variable {ctx : Context} {name : String} {tree : Node} {path : List Nat} {ty : Ty}

/-- What is reported after a node has become a name that is not bound. -/
theorem Replaceable.reports (h : ctx.Replaceable name tree path ty)
    (hlenient : ctx.strict = false) (hunbound : ctx.lookup? name = none) (hQ : Parting P Q)
    (hty : P ty) :
    ∃ added, (ctx.check .builtin (tree.put path (.ofForm (.name name)))).2.diagnostics =
      ctx.diagnostics ++ added ∧ ∀ d ∈ added, Q d := by
  have hchecker : ctx.checker .builtin = .lenient := by rw [checker, hlenient]; rfl
  obtain ⟨hclean, hunbinding, hplace, hfresh, htyped⟩ := h
  rw [check_eq, hchecker] at hclean htyped
  rw [check_eq, hchecker]
  have hspot : Checker.Spot name ty ctx.scope tree path :=
    ⟨hunbinding, hplace, hfresh, hunbound, htyped⟩
  have hfades := (Checker.fades_put hQ hty path tree ctx.scope hspot).1 (by simpa using hclean)
    ctx.scope (.refl _)
  exact ⟨_, rfl, hfades.reports⟩

end Context

/-! ## Nothing better can be said -/

def Node.arrayComparison (x y : Node) : Node :=
  ofForm (.binary .eq (ofForm (.array [x])) (ofForm (.array [y])))

namespace Checker

/-- The comparison of two arrays of one item each is reported unless the types of the items
are compatible. -/
theorem run_arrayComparison (x y : Node) (s : Scope) :
    let first := (lenient.check x).run s
    let second := (lenient.check y).run first.scope
    let outcome := (lenient.check (.arrayComparison x y)).run s
    outcome.result.item.at? [0, 0] = some first.result.item ∧
      (outcome.reports = [] ↔ first.reports = [] ∧ second.reports = [] ∧
        first.result.ty.compatible second.result.ty = true) := by
  have hcompare (a b : Ty) : (Verdict.ofBinary .builtin .eq (.array a) (.array b)).reports = [] ↔
      a.compatible b = true := by
    have haccepts : (Ty.array a).accepts (.array b) = a.compatible b := rfl
    simp only [Verdict.ofBinary, Operators.binary?, Operators.builtin, Option.bind_some,
      BinaryRule.result?, haccepts]
    cases a.compatible b <;> simp
  refine ⟨?_, ?_⟩
  · simp [Node.arrayComparison, Node.ofForm, check, infer, checkAlike, Node.at?, Form.children]
  · simp [Node.arrayComparison, Node.ofForm, check, infer, checkAlike, Ty.expect?, Typed.headTy,
      lenient, hcompare]

end Checker

namespace Context

variable {ctx : Context} {name : String}

/-- A node can be replaced that is compared with itself in this way, and nothing is
reported then exactly if its type is primitive. -/
theorem replaceable_arrayComparison (hlenient : ctx.strict = false)
    (hunbound : ctx.lookup? name = none) {sub : Node} (hsub : sub.boundNames = [])
    (hclean : (ctx.check .builtin sub).2.diagnostics = ctx.diagnostics) :
    ctx.Replaceable name (.arrayComparison sub sub) [0, 0] (ctx.check .builtin sub).1.ty ∧
      ((ctx.check .builtin
          ((Node.arrayComparison sub sub).put [0, 0] (.ofForm (.name name)))).2.diagnostics =
        ctx.diagnostics ↔ (ctx.check .builtin sub).1.ty.isPrimitive = true) := by
  have hchecker : ctx.checker .builtin = .lenient := by rw [checker, hlenient]; rfl
  have hput : (Node.arrayComparison sub sub).put [0, 0] (.ofForm (.name name)) =
      .arrayComparison (.ofForm (.name name)) sub := rfl
  have hbound : (Node.arrayComparison sub sub).boundNames = [] := by
    simp [Node.arrayComparison, Node.boundNames_ofForm, Form.children, Form.boundName?, hsub]
  have hscope := Checker.lenient.scope_check sub hsub ctx.scope
  have hunknown := Checker.run_check_unbound hunbound
  obtain ⟨htyped, hself⟩ := Checker.run_arrayComparison sub sub ctx.scope
  obtain ⟨-, hother⟩ := Checker.run_arrayComparison (.ofForm (.name name)) sub ctx.scope
  simp only [check_eq, hchecker, List.append_right_eq_self, hput] at hclean ⊢
  simp only [hscope, hunknown, hclean, Ty.compatible_self, Ty.any_compatible, true_and]
    at hself hother
  refine ⟨⟨?_, ⟨sub, rfl, hsub⟩, rfl, ?_, ?_⟩, hother⟩
  · simp only [check_eq, hchecker, List.append_right_eq_self]
    exact hself.2 trivial
  · rw [hbound]
    exact List.not_mem_nil
  · rw [check_eq, hchecker]
    dsimp only
    rw [htyped, Option.map_some, Checker.written_check]

/-- In a lenient context, with the built-in operators, let a node of a tree without faults
become a name that is not bound. Whatever is reported then is about types that were
accepted before parts of them became unknown, and nothing is if the type of the node was
primitive. No other type has that property: a node does not set off reports wherever it
may stand exactly if its type is primitive. -/
theorem check_put_unknown (ctx : Context) (hlenient : ctx.strict = false) (name : String)
    (hunbound : ctx.lookup? name = none) :
    (∀ tree path ty, ctx.Replaceable name tree path ty →
      ∃ added, (ctx.check .builtin (tree.put path (.ofForm (.name name)))).2.diagnostics =
          ctx.diagnostics ++ added ∧
        (∀ d ∈ added, d.BlamesUnknown) ∧ (ty.isPrimitive = true → added = [])) ∧
    (∀ sub : Node, sub.boundNames = [] →
      (ctx.check .builtin sub).2.diagnostics = ctx.diagnostics →
      ((∀ tree path, ctx.Replaceable name tree path (ctx.check .builtin sub).1.ty →
          tree.at? path = some sub →
          (ctx.check .builtin (tree.put path (.ofForm (.name name)))).2.diagnostics =
            ctx.diagnostics) ↔
        (ctx.check .builtin sub).1.ty.isPrimitive = true)) := by
  have hall : ∀ tree path ty, ctx.Replaceable name tree path ty →
      ∃ added, (ctx.check .builtin (tree.put path (.ofForm (.name name)))).2.diagnostics =
          ctx.diagnostics ++ added ∧
        (∀ d ∈ added, d.BlamesUnknown) ∧ (ty.isPrimitive = true → added = []) := by
    intro tree path ty h
    obtain ⟨added, hadded, hblames⟩ := h.reports hlenient hunbound parting_all trivial
    refine ⟨added, hadded, hblames, ?_⟩
    intro hprimitive
    obtain ⟨added', hadded', hnone⟩ := h.reports hlenient hunbound parting_primitive hprimitive
    have hsame : added = added' := List.append_cancel_left (hadded.symm.trans hadded')
    exact hsame ▸ List.eq_nil_iff_forall_not_mem.2 hnone
  refine ⟨hall, ?_⟩
  intro sub hsub hclean
  constructor
  · intro hharmless
    -- A node of any other type does harm where it is compared with itself inside of arrays.
    obtain ⟨hreplaceable, hiff⟩ := replaceable_arrayComparison hlenient hunbound hsub hclean
    exact hiff.1 (hharmless _ _ hreplaceable rfl)
  · intro hprimitive tree path h _
    obtain ⟨added, hadded, -, hnone⟩ := hall tree path _ h
    rw [hadded, hnone hprimitive, List.append_nil]

/-- In `f(0) < 0`, where `f` takes a number and gives one, either zero may become unknown
without harm: the one below the comparison, and the argument of the call at its left. -/
theorem check_put_unknown_zero :
    let ctx := ((init false).declare "f" (.function [.number] .number)).2
    let zero := Node.ofForm (.number .zero)
    let order := Node.ofForm (.binary .lt (.call (.ofForm (.name "f")) [zero] false) zero)
    ctx.strict = false ∧ ctx.lookup? "u" = none ∧
      ctx.Replaceable "u" order [1] .number ∧ order.at? [1] = some zero ∧
      (ctx.check .builtin (order.put [1] (.ofForm (.name "u")))).2.diagnostics = [] ∧
      ctx.Replaceable "u" order [0, 1, 0] .number ∧ order.at? [0, 1, 0] = some zero ∧
      (ctx.check .builtin (order.put [0, 1, 0] (.ofForm (.name "u")))).2.diagnostics = [] := by
  intro ctx zero order
  obtain ⟨-, hexact⟩ := check_put_unknown ctx rfl "u" rfl
  have hzero : zero.boundNames = [] := by
    simp [zero, Node.boundNames_ofForm, Form.children, Form.boundName?]
  have hnames : order.boundNames = [] := by
    simp [order, zero, Node.call, Node.boundNames_ofForm, Form.children, Form.boundName?]
  have hfresh : "u" ∉ order.boundNames := by
    rw [hnames]
    exact List.not_mem_nil
  have hright : ctx.Replaceable "u" order [1] .number := ⟨rfl, ⟨_, rfl, hzero⟩, rfl, hfresh, rfl⟩
  have hargument : ctx.Replaceable "u" order [0, 1, 0] .number :=
    ⟨rfl, ⟨_, rfl, hzero⟩, rfl, hfresh, rfl⟩
  have hharmless := (hexact zero hzero rfl).2 rfl
  exact ⟨rfl, rfl, hright, rfl, hharmless _ _ hright rfl, hargument, rfl,
    hharmless _ _ hargument rfl⟩

/-- In `[[0]] == [[0]]` the first `[0]` cannot become a name that is not bound: there is
nothing to report before, and a comparison afterwards. -/
theorem not_harmless_in_nested_zeros :
    (let zeros := Node.ofForm (.array [.ofForm (.number .zero)])
     let tree := Node.arrayComparison zeros zeros
     (init false).Replaceable "u" tree [0, 0] (.array .number) ∧
       ((init false).check .builtin (tree.put [0, 0] (.ofForm (.name "u")))).2.diagnostics =
         [.operator "==" "Array<Any> and Array<Array<Number>>"]) := by
  refine ⟨⟨rfl, ⟨_, rfl, ?_⟩, rfl, ?_, rfl⟩, rfl⟩
  · simp [Node.boundNames_ofForm, Form.children, Form.boundName?]
  · simp [Node.arrayComparison, Node.boundNames_ofForm, Form.children, Form.boundName?]

end Context

end GradualScript
