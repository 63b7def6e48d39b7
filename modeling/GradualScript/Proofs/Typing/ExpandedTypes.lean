import GradualScript.Proofs.Typing.Audit
import GradualScript.Proofs.Typing.FadedForms
import GradualScript.Proofs.Typing.Sessions
import GradualScript.Proofs.Typing.Vocabulary

/-!
# Aliases do not get into the types that are found

A name that is bound to a type is an alias of it, and two types can be compared only after
all aliases in them have been expanded. A check expands an annotation when it comes to it, and
what a name is bound to when the name is used. Everything else it takes from types that it has
found before. So no alias is left in any type that the check writes, binds or compares, as long
as no alias leads back to itself and no name is bound that has been mentioned in a type before
(`Context.check_expands`).

The argument is that of a vocabulary: the names that are bound neither before the check nor by
the tree are never bound, and all other names get expanded (`Checker.confines_expanded`). What
has to hold of scopes for this goes on to hold when a name is bound, since a name that is not
mentioned anywhere is on no cycle (`Scope.acyclic_declare`).

What a check compares at a form is listed by `Form.comparisons`, and is what the reports at the
form depend on (`Form.comparisons_fit_iff`).
-/

set_option autoImplicit false

namespace GradualScript

/-! ## Scopes without cycles -/

namespace Scope

open Relation (TransGen)

variable {s : Scope}

/-- Where a cycle can only lead downhill there is none. -/
theorem acyclic_of_rank (rank : String → Nat)
    (h : ∀ b ∈ s.bindings, ∀ name ∈ b.2.names, rank name < rank b.1) (name : String) :
    ¬ s.Cyclic name := by
  have hdown : ∀ a b, TransGen s.Leads a b → rank b < rank a := by
    intro a b hpath
    induction hpath with
    | single hab =>
      obtain ⟨ty, hty, hb⟩ := hab
      exact h (a, ty) (mem_bindings hty) _ hb
    | tail _ hbc ih =>
      obtain ⟨ty, hty, hc⟩ := hbc
      exact Nat.lt_trans (h (_, ty) (mem_bindings hty) _ hc) ih
  intro hcyclic
  exact Nat.lt_irrefl _ (hdown name name hcyclic)

/-- A name that is mentioned nowhere can be bound without closing a cycle. -/
theorem acyclic_declare {bound : String} {ty : Ty} (hs : ∀ name, ¬ s.Cyclic name)
    (hunused : (s.declare bound ty).Within (· ≠ bound)) (name : String) :
    ¬ (s.declare bound ty).Cyclic name := by
  have hapart {a b : String} (hab : (s.declare bound ty).Leads a b) : b ≠ bound := by
    obtain ⟨found, hfound, hb⟩ := hab
    exact hunused a found hfound b hb
  have hold {a b : String} (ha : a ≠ bound) (hab : (s.declare bound ty).Leads a b) :
      s.Leads a b := by
    obtain ⟨found, hfound, hb⟩ := hab
    rw [lookup?_declare, if_neg ha] at hfound
    exact ⟨found, hfound, hb⟩
  -- No step of a cycle starts at `bound`, because no step leads there.
  have hpath : ∀ a b, a ≠ bound → TransGen (s.declare bound ty).Leads a b →
      TransGen s.Leads a b := by
    intro a b ha h
    induction h with
    | single hab => exact .single (hold ha hab)
    | tail hbefore hbc ih =>
      obtain ⟨m, -, hlast⟩ := TransGen.tail'_iff.1 hbefore
      exact ih.tail (hold (hapart hlast) hbc)
  intro hcyclic
  obtain ⟨m, -, hback⟩ := TransGen.tail'_iff.1 hcyclic
  exact hs name (hpath name name (hapart hback) hcyclic)

end Scope

/-! ## Comparisons -/

/-- The items of a constructor are compared with the first one. -/
def Ty.comparisonsAlike : List Ty → List (Ty × Ty)
  | [] => []
  | first :: others => others.map fun ty => (first, ty)

def BinaryRule.comparisons (left right : Ty) : BinaryRule → List (Ty × Ty)
  | .uniform operand _ => [(operand, left), (operand, right)]
  | .alike _ => [(left, right)]

/-- Arrays and tables are known to have a length without a comparison. -/
def UnaryRule.comparisons (operandTy : Ty) : UnaryRule → List (Ty × Ty)
  | .uniform operand _ => [(operand, operandTy)]
  | .sized _ =>
    match operandTy with
    | .array _ | .table _ _ => []
    | ty => [(.string, ty)]

/-- The types that a check compares at a form, each expected one with an actual one. -/
def Form.comparisons (ops : Operators) (s : Scope) : Form → List (Ty × Ty)
  | .binary op left right =>
    (ops.binary op).toList.flatMap (BinaryRule.comparisons left.written right.written)
  | .unary op operand => (ops.unary op).toList.flatMap (UnaryRule.comparisons operand.written)
  | .call callee arguments selfCall =>
    match callee.written with
    | .function params _ => (Verdict.openParams params selfCall).zip arguments.argumentTys
    | _ => []
  | .index target key =>
    match target.written with
    | .table expected _ => [(expected, key.written)]
    | .array _ => [(.number, key.written)]
    | _ => []
  | .binding _ (some declared) (some value) => [(s.resolve declared, value.written)]
  | .array items => Ty.comparisonsAlike (items.map Node.written)
  | .table pairs =>
    Ty.comparisonsAlike ((pairs.map (·.1)).map Node.written) ++
      Ty.comparisonsAlike ((pairs.map (·.2)).map Node.written)
  | _ => []

/-- Whether in each pair the expected type accepts the actual one. -/
def AllFit (pairs : List (Ty × Ty)) : Prop := ∀ pair ∈ pairs, pair.1.accepts pair.2 = true

/-- All pairs of types fit exactly if those that do not are none. -/
theorem allFit_iff_countP {pairs : List (Ty × Ty)} :
    AllFit pairs ↔ (pairs.countP fun pair => !pair.1.accepts pair.2) = 0 := by
  simp [AllFit, List.countP_eq_zero]

/-- The items of a constructor all fit exactly if none strays from the first. -/
theorem allFit_comparisonsAlike {tys : List Ty} :
    AllFit (Ty.comparisonsAlike tys) ↔ Ty.strays tys = 0 := by
  cases tys with
  | nil => simp [AllFit, Ty.comparisonsAlike, Ty.strays]
  | cons first others =>
    rw [allFit_iff_countP, Ty.comparisonsAlike, List.countP_map]
    rfl

/-- The pairs of two lists fit exactly if those of each do. -/
theorem allFit_append {pairs others : List (Ty × Ty)} :
    AllFit (pairs ++ others) ↔ AllFit pairs ∧ AllFit others :=
  List.forall_mem_append

/-- A rule for two operands gives a result exactly if the types it compares fit. -/
theorem BinaryRule.allFit_comparisons {left right : Ty} {rule : BinaryRule} :
    AllFit (rule.comparisons left right) ↔ (rule.result? left right).isSome = true := by
  cases rule <;> simp [AllFit, comparisons, result?]

/-- A rule for one operand gives a result exactly if the types it compares fit. -/
theorem UnaryRule.allFit_comparisons {operandTy : Ty} {rule : UnaryRule} :
    AllFit (rule.comparisons operandTy) ↔ (rule.result? operandTy).isSome = true := by
  cases rule with
  | uniform operand result => simp [AllFit, comparisons, result?]
  | sized result =>
    have hsized : AllFit ((sized result).comparisons operandTy) ↔ operandTy.isSized = true := by
      cases operandTy <;> simp [AllFit, comparisons, Ty.isSized]
    rw [hsized]
    simp [result?]

/-- With the built-in operators a mismatch or an operator is reported at a form exactly if some
types that are compared there do not fit. -/
theorem Form.comparisons_fit_iff (s : Scope) (form : Form) :
    AllFit (form.comparisons .builtin s) ↔
      form.rejections s = 0 ∧ form.breaksOperator .builtin = false := by
  cases form with
  | binary op left right =>
    obtain ⟨rule, hrule⟩ : ∃ rule, Operators.builtin.binary op = some rule := by
      cases op <;> exact ⟨_, rfl⟩
    simp [comparisons, rejections, breaksOperator, Operators.binary?, hrule,
      BinaryRule.allFit_comparisons, Option.isSome_iff_ne_none]
  | unary op operand =>
    obtain ⟨rule, hrule⟩ : ∃ rule, Operators.builtin.unary op = some rule := by
      cases op <;> exact ⟨_, rfl⟩
    simp [comparisons, rejections, breaksOperator, Operators.unary?, hrule,
      UnaryRule.allFit_comparisons, Option.isSome_iff_ne_none]
  | call callee arguments selfCall =>
    simp only [allFit_iff_countP, comparisons, rejections, breaksOperator, and_true]
    cases callee.written <;> rfl
  | index target key =>
    simp only [comparisons, rejections, breaksOperator, and_true]
    cases target.written <;> simp [AllFit, Ty.rejectsKey]
  | binding x declared value =>
    cases declared <;> cases value <;> simp [AllFit, comparisons, rejections, breaksOperator]
  | array items => simp [comparisons, rejections, breaksOperator, allFit_comparisonsAlike]
  | table pairs =>
    simp [comparisons, rejections, breaksOperator, allFit_append, allFit_comparisonsAlike]
  | _ => simp [AllFit, comparisons, rejections, breaksOperator]

/-! ## Visits of an annotated tree -/

/-- What a visit binds a name to. -/
def Visit.bound? (v : Visit) : Option (String × Ty) :=
  match v.node.form with
  | .binding name declared value => some (name, v.scope.boundTy declared value)
  | _ => none

def Visit.comparisons (ops : Operators) (v : Visit) : List (Ty × Ty) :=
  v.node.form.comparisons ops v.scope

/-- After some visits a name has the type that one of them has bound it to, or it has the type
that it had and no node binds it. -/
theorem Scope.of_lookup?_afterAll {s : Scope} {nodes : List Node} {name : String} {ty : Ty}
    (h : (s.afterAll nodes).lookup? name = some ty) :
    (∃ v ∈ visits s nodes, v.bound? = some (name, ty)) ∨
      s.lookup? name = some ty ∧ ∀ node ∈ nodes, node.form.boundName? ≠ some name := by
  induction nodes generalizing s with
  | nil => exact .inr ⟨h, fun _ hnode => absurd hnode List.not_mem_nil⟩
  | cons node rest ih =>
    rcases ih h with ⟨v, hv, hbound⟩ | ⟨hfirst, hrest⟩
    · exact .inl ⟨v, List.mem_cons_of_mem _ hv, hbound⟩
    · by_cases hname : node.form.boundName? = some name
      · refine .inl ⟨⟨s, node⟩, List.mem_cons_self, ?_⟩
        obtain ⟨form, location, written⟩ := node
        cases form with
        | binding bound declared value =>
          obtain rfl := Option.some.inj hname
          have hty := (lookup?_declare s bound bound (s.boundTy declared value)).symm.trans hfirst
          rw [if_pos rfl] at hty
          show some (bound, s.boundTy declared value) = some (bound, ty)
          rw [Option.some.inj hty]
        | _ => contradiction
      · rw [Checker.lookup?_after hname] at hfirst
        exact .inr ⟨hfirst, List.forall_mem_cons.2 ⟨hname, hrest⟩⟩

/-- The nodes below a child of a node of a tree are nodes of the tree. -/
theorem Node.mem_visited_below {tree node child n : Node} (hnode : node ∈ tree.visited)
    (hchild : child ∈ node.form.children) (hn : n ∈ child.visited) : n ∈ tree.visited := by
  induction tree using Node.induction with
  | step form location ty ih =>
    rw [visited_eq, List.mem_append, List.mem_flatMap, List.mem_singleton] at hnode ⊢
    rcases hnode with ⟨top, htop, hnode⟩ | rfl
    · exact .inl ⟨top, htop, ih top htop hnode⟩
    · exact .inl ⟨child, hchild, hn⟩

/-! ## The vocabulary of unbound names -/

namespace Checker

/-- Whether a name is bound neither in a scope nor later on. -/
def Free (base : Scope) (names : List String) (name : String) : Prop :=
  base.lookup? name = none ∧ name ∉ names

/-- What has to hold of a scope for its types to be expanded in full: no name leads back to
itself, none that is still to be bound is mentioned, and no name that `base` binds is missing. -/
structure Unfolds (base : Scope) (names : List String) (s : Scope) : Prop where
  acyclic : ∀ name, ¬ s.Cyclic name
  within : s.Within (· ∉ names)
  unbound {name : String} : s.lookup? name = none → base.lookup? name = none

variable {base s : Scope} {names : List String} {ty : Ty}

/-- Without cycles only names are left that are not bound, and they are not bound later. -/
theorem Unfolds.resolve (hs : Unfolds base names s) (hty : ty.Within (· ∉ names)) :
    (s.resolve ty).Within (Free base names) := by
  intro name hname
  have hleft := (Scope.of_mem_names_resolve hname).2
  exact ⟨hs.unbound (hleft.resolve_right (hs.acyclic name)), hs.within.resolve hty name hname⟩

/-- A name that has been mentioned nowhere is bound to a type that has been expanded. -/
theorem Unfolds.declare (hs : Unfolds base names s) {bound : String} (hbound : bound ∈ names)
    (hty : ty.Within (Free base names)) : Unfolds base names (s.declare bound ty) where
  acyclic := by
    have hnames : (s.declare bound ty).Within (· ∉ names) :=
      hs.within.declare (fun name hname => (hty name hname).2) bound
    refine Scope.acyclic_declare hs.acyclic ?_
    rintro other found hfound name hname rfl
    exact hnames other found hfound name hname hbound
  within := hs.within.declare (fun name hname => (hty name hname).2) bound
  unbound {name} hname := by
    rw [Scope.lookup?_declare] at hname
    split at hname
    · contradiction
    · exact hs.unbound hname

/-- From a scope without cycles a check keeps to names that are never bound, if the names that it
binds have not been mentioned. -/
theorem confines_expanded {c : Checker} (hops : c.operators.Within (Free base names)) :
    c.Confines (Free base names) (Unfolds base names) (·.Within (· ∉ names)) (· ∈ names) where
  operators := hops
  lookup hs hname := hs.resolve (hs.within _ _ hname)
  resolve hs hty := hs.resolve hty
  declare hs hbound hty := hs.declare hbound hty

/-! ### What is compared within a vocabulary -/

section Comparisons

variable {P : String → Prop}

/-- Whether both types of each pair are within a vocabulary. -/
def PairsWithin (pairs : List (Ty × Ty)) (P : String → Prop) : Prop :=
  ∀ pair ∈ pairs, pair.1.Within P ∧ pair.2.Within P

/-- Parameters and arguments that are each within a vocabulary are so in pairs. -/
theorem pairsWithin_zip {params arguments : List Ty} (hparams : ∀ a ∈ params, a.Within P)
    (harguments : ∀ a ∈ arguments, a.Within P) : PairsWithin (params.zip arguments) P :=
  fun _ hpair => ⟨hparams _ (List.of_mem_zip hpair).1, harguments _ (List.of_mem_zip hpair).2⟩

/-- The items of a constructor are compared within their vocabulary. -/
theorem pairsWithin_comparisonsAlike {tys : List Ty} (htys : ∀ ty ∈ tys, ty.Within P) :
    PairsWithin (Ty.comparisonsAlike tys) P := by
  cases tys with
  | nil => exact fun _ hpair => absurd hpair List.not_mem_nil
  | cons first others =>
    rw [List.forall_mem_cons] at htys
    exact List.forall_mem_map.2 fun ty hty => ⟨htys.1, htys.2 ty hty⟩

/-- The built-in operators compare their operands with one another or with primitive types. -/
theorem pairsWithin_builtin_binary {op : BinaryOp} {rule : BinaryRule}
    (hrule : Operators.builtin.binary op = some rule) {left right : Ty} (hleft : left.Within P)
    (hright : right.Within P) : PairsWithin (rule.comparisons left right) P := by
  rcases Operators.builtin_binary op with ⟨kind, result, hkind⟩ | ⟨-, halike⟩
  · obtain rfl := Option.some.inj (hkind.symm.trans hrule)
    simp [PairsWithin, BinaryRule.comparisons, hleft, hright]
  · obtain rfl := Option.some.inj (halike.symm.trans hrule)
    simp [PairsWithin, BinaryRule.comparisons, hleft, hright]

/-- The built-in rules for one operand compare within its vocabulary. -/
theorem pairsWithin_builtin_unary {op : UnaryOp} {rule : UnaryRule}
    (hrule : Operators.builtin.unary op = some rule) {operand : Ty} (hoperand : operand.Within P) :
    PairsWithin (rule.comparisons operand) P := by
  cases op <;> obtain rfl := Option.some.inj hrule
  case length =>
    cases operand <;> simp [PairsWithin, UnaryRule.comparisons] <;> exact hoperand
  all_goals simpa [PairsWithin, UnaryRule.comparisons] using hoperand

end Comparisons

namespace Confines

variable {c : Checker} {P : String → Prop} {I : Scope → Prop} {D : Ty → Prop} {B : String → Prop}

/-- What is compared at a form is within the vocabulary if its children are. -/
theorem comparisons (h : c.Confines P I D B) (hs : I s) {form : Form}
    (hdeclared : ∀ ty ∈ form.declared?.toList, D ty)
    (hchildren : ∀ child ∈ form.children, child.Within P) :
    PairsWithin (form.comparisons .builtin s) P := by
  have hitems {items : List Node} (hmem : ∀ item ∈ items, item ∈ form.children) :
      PairsWithin (Ty.comparisonsAlike (items.map Node.written)) P :=
    pairsWithin_comparisonsAlike (List.forall_mem_map.2 fun item hitem =>
      (hchildren item (hmem item hitem)).written)
  cases form with
  | binary op left right =>
    refine List.forall_mem_flatMap.2 fun rule hrule => ?_
    exact pairsWithin_builtin_binary (Option.mem_toList.1 hrule)
      (hchildren left (by simp [Form.children])).written
      (hchildren right (by simp [Form.children])).written
  | unary op operand =>
    refine List.forall_mem_flatMap.2 fun rule hrule => ?_
    exact pairsWithin_builtin_unary (Option.mem_toList.1 hrule)
      (hchildren operand (by simp [Form.children])).written
  | call callee arguments selfCall =>
    have hcallee := (hchildren callee (by simp [Form.children])).written
    have harguments := (hchildren arguments (by simp [Form.children])).argumentTys
    rw [Form.comparisons]
    split
    · rename_i params result hfunction
      rw [hfunction, Ty.within_function] at hcallee
      exact pairsWithin_zip
        (fun a ha => hcallee.1 a (Verdict.mem_of_mem_openParams ha)) harguments
    · exact fun _ hpair => absurd hpair List.not_mem_nil
  | index target key =>
    have htarget := (hchildren target (by simp [Form.children])).written
    have hkey := (hchildren key (by simp [Form.children])).written
    rw [Form.comparisons]
    split
    · rename_i expected value htable
      rw [htable, Ty.within_table] at htarget
      exact List.forall_mem_singleton.2 ⟨htarget.1, hkey⟩
    · exact List.forall_mem_singleton.2 ⟨Ty.within_primitive .number, hkey⟩
    · exact fun _ hpair => absurd hpair List.not_mem_nil
  | binding x declared value =>
    cases declared with
    | none => exact fun _ hpair => absurd hpair List.not_mem_nil
    | some declared =>
      cases value with
      | none => exact fun _ hpair => absurd hpair List.not_mem_nil
      | some value =>
        have hexpected := h.resolve hs (hdeclared declared (by simp [Form.declared?]))
        exact List.forall_mem_singleton.2
          ⟨hexpected, (hchildren value (by simp [Form.children])).written⟩
  | array items => exact hitems fun item hitem => hitem
  | table pairs =>
    exact List.forall_mem_append.2 ⟨hitems fun key hkey => List.mem_append_left _ hkey,
      hitems fun value hvalue => List.mem_append_right _ hvalue⟩
  | _ => exact fun _ hpair => absurd hpair List.not_mem_nil

/-- Whether what a form says itself is admitted, and all types written below it are within the
vocabulary. -/
structure Admits (P : String → Prop) (D : Ty → Prop) (B : String → Prop) (form : Form) : Prop where
  declared : ∀ ty ∈ form.declared?.toList, D ty
  bound : ∀ name ∈ form.boundName?.toList, B name
  children : ∀ child ∈ form.children, child.Within P

/-- The scopes in which admitted nodes are visited are of the kind that is assumed. -/
theorem scope_visits (h : c.Confines P I D B) {nodes : List Node}
    (hnodes : ∀ node ∈ nodes, Admits P D B node.form) (hs : I s) :
    ∀ v ∈ visits s nodes, I v.scope ∧ Admits P D B v.node.form := by
  induction nodes generalizing s with
  | nil => exact fun _ hv => absurd hv List.not_mem_nil
  | cons node rest ih =>
    rw [List.forall_mem_cons] at hnodes
    have hafter : I (s.after node.form) := h.after hs hnodes.1.declared hnodes.1.bound
      fun child hchild => (hnodes.1.children child hchild).written
    exact List.forall_mem_cons.2 ⟨⟨hs, hnodes.1⟩, ih hnodes.2 hafter⟩

/-- The nodes of an annotated tree are admitted if those of the tree are, and it has been
annotated within the vocabulary. -/
theorem admits_check (node : Node) (hdeclared : ∀ ty ∈ node.declaredTys, D ty)
    (hbound : ∀ x ∈ node.boundNames, B x) (hitem : ((c.check node).run s).result.item.Within P) :
    ∀ n ∈ ((c.check node).run s).result.item.visited, Admits P D B n.form := by
  intro n hn
  refine ⟨fun ty hty => hdeclared ty ?_, fun name hname => hbound name ?_, ?_⟩
  · rw [← c.declaredTys_check node s]
    exact List.mem_filterMap.2 ⟨n, hn, Option.mem_toList.1 hty⟩
  · rw [← c.boundNames_check node s]
    exact List.mem_filterMap.2 ⟨n, hn, Option.mem_toList.1 hname⟩
  · intro child hchild m hm
    exact hitem m (Node.mem_visited_below hn hchild hm)

/-- Every visit of a check finds, binds and compares types within the vocabulary only. -/
theorem visits_check (h : c.Confines P I D B) (node : Node)
    (hdeclared : ∀ ty ∈ node.declaredTys, D ty) (hbound : ∀ x ∈ node.boundNames, B x) (hs : I s) :
    ∀ v ∈ visits s ((c.check node).run s).result.item.visited,
      v.node.written.Within P ∧ (∀ name ty, v.bound? = some (name, ty) → ty.Within P) ∧
        PairsWithin (v.comparisons .builtin) P := by
  have hitem := (h.check node hdeclared hbound hs).item
  intro v hv
  obtain ⟨hscope, hadmits⟩ := h.scope_visits (admits_check node hdeclared hbound hitem) hs v hv
  have hnode : v.node ∈ ((c.check node).run s).result.item.visited := by
    rw [← map_node_visits s (Node.visited _)]
    exact List.mem_map_of_mem hv
  refine ⟨hitem v.node hnode, ?_, h.comparisons hscope hadmits.declared hadmits.children⟩
  intro name ty hty
  obtain ⟨t, form, location, written⟩ := v
  cases form with
  | binding x declared value =>
    obtain ⟨rfl, rfl⟩ := Prod.mk.inj (Option.some.inj hty)
    exact h.boundTy hscope (fun ty hty => hadmits.declared ty (Option.mem_toList.2 hty))
      (fun child hchild => (hadmits.children child (Option.mem_toList.2 hchild)).written)
  | _ => contradiction

end Confines

end Checker

namespace Context

/-- A name that a tree binds is bound after the check to what some binding in the tree binds it
to. -/
theorem exists_bound_check (ctx : Context) (ops : Operators) {tree : Node} {name : String}
    (h : name ∈ tree.boundNames) :
    let after := ctx.check ops tree
    ∃ ty, after.2.lookup? name = some ty ∧
      ∃ v ∈ visits ctx.scope after.1.item.visited, v.bound? = some (name, ty) := by
  intro after
  have hdeclared : after.2.isDeclared name = true :=
    (ctx.isDeclared_check ops tree name).2 (.inr h)
  obtain ⟨ty, hty⟩ := Option.isSome_iff_exists.1 hdeclared
  have hitem : after.1.item = (((ctx.checker ops).check tree).run ctx.scope).result.item := by
    rw [result_check]
  have hend : after.2.scope = ctx.scope.afterAll after.1.item.visited := by
    rw [scope_check, ((ctx.checker ops).audits tree ctx.scope).scope_eq, hitem]
  have hlast : (ctx.scope.afterAll after.1.item.visited).lookup? name = some ty := hend ▸ hty
  refine ⟨ty, hty, ?_⟩
  rcases Scope.of_lookup?_afterAll hlast with hvisit | ⟨-, hnone⟩
  · exact hvisit
  · rw [← (ctx.checker ops).boundNames_check tree ctx.scope, ← hitem] at h
    obtain ⟨n, hn, hbinds⟩ := List.mem_filterMap.1 h
    exact absurd hbinds (hnone n hn)

/-- A tree is checked with the built-in operators, in a context in which no name leads back to
itself. No name that the tree binds is mentioned in a type that a name is bound to before, or in
an annotation. Then after the check, too, no name leads back to itself, and no name that is bound
by then is left in a type that is written on a node of the tree, that a binding in the tree binds
its name to, or that a name of the tree is bound to in the end. So the types that have been
compared are all expanded in full; and on these comparisons it depends whether a mismatch or an
operator is reported at a node. -/
theorem check_expands (ctx : Context) (tree : Node) (hacyclic : ∀ name, ¬ ctx.scope.Cyclic name)
    (hscope : ctx.scope.Within (· ∉ tree.boundNames))
    (htree : ∀ ty ∈ tree.declaredTys, ty.Within (· ∉ tree.boundNames)) :
    let after := ctx.check .builtin tree
    let visited := visits ctx.scope after.1.item.visited
    let IsExpanded (ty : Ty) : Prop := ty.Within fun name => after.2.lookup? name = none
    (∀ name, ¬ after.2.scope.Cyclic name) ∧
      (∀ n ∈ after.1.item.visited, ∃ ty, n.ty = some ty ∧ IsExpanded ty) ∧
      (∀ v ∈ visited, ∀ name ty, v.bound? = some (name, ty) → IsExpanded ty) ∧
      (∀ name ∈ tree.boundNames, ∃ ty, after.2.lookup? name = some ty ∧ IsExpanded ty) ∧
      ∀ v ∈ visited,
        (∀ pair ∈ v.comparisons .builtin, IsExpanded pair.1 ∧ IsExpanded pair.2) ∧
        (AllFit (v.comparisons .builtin) ↔
          v.account (ctx.checker .builtin) .mismatch = 0 ∧
            v.account (ctx.checker .builtin) .operator = 0) := by
  intro after visited IsExpanded
  let c := ctx.checker .builtin
  have hconfines : c.Confines (Checker.Free ctx.scope tree.boundNames)
      (Checker.Unfolds ctx.scope tree.boundNames) (·.Within (· ∉ tree.boundNames))
      (· ∈ tree.boundNames) := Checker.confines_expanded .builtin
  have hstart : Checker.Unfolds ctx.scope tree.boundNames ctx.scope :=
    ⟨hacyclic, hscope, fun hname => hname⟩
  -- What is unbound before the check and not bound by the tree is unbound after it.
  have hexpanded {ty : Ty} (hty : ty.Within (Checker.Free ctx.scope tree.boundNames)) :
      IsExpanded ty := by
    intro name hname
    rw [ctx.lookup?_check .builtin tree (hty name hname).2]
    exact (hty name hname).1
  have hitem : after.1.item = ((c.check tree).run ctx.scope).result.item := by
    rw [result_check]
  have hvisits := hconfines.visits_check tree htree (fun _ => id) hstart
  rw [← hitem] at hvisits
  have hbound : ∀ v ∈ visited, ∀ name ty, v.bound? = some (name, ty) → IsExpanded ty :=
    fun v hv name ty hty => hexpanded ((hvisits v hv).2.1 name ty hty)
  obtain ⟨-, htyped, -⟩ := c.audits tree ctx.scope
  rw [← hitem] at htyped
  refine ⟨?_, fun n hn => ?_, hbound, fun name hname => ?_, fun v hv => ⟨fun pair hpair => ?_, ?_⟩⟩
  · rw [scope_check]
    exact (hconfines.check tree htree (fun _ => id) hstart).scope.acyclic
  · rw [← map_node_visits ctx.scope (Node.visited _)] at hn
    obtain ⟨v, hv, rfl⟩ := List.mem_map.1 hn
    have hwritten := hexpanded (hvisits v hv).1
    rw [Node.written, htyped v hv] at hwritten
    exact ⟨_, htyped v hv, hwritten⟩
  · obtain ⟨ty, hty, v, hv, hbinds⟩ := ctx.exists_bound_check .builtin hname
    exact ⟨ty, hty, hbound v hv name ty hbinds⟩
  · exact ((hvisits v hv).2.2 pair hpair).imp hexpanded hexpanded
  · have hfit := Form.comparisons_fit_iff v.scope v.node.form
    rw [← Bool.toNat_eq_zero] at hfit
    exact hfit

/-- Aliases of aliases are expanded in an annotation and in the types of parameters. What is left
is a name that is bound nowhere, and a mismatch is reported between expanded types. -/
theorem check_expands_scores :
    let ctx : Context := ⟨false, ⟨[("Score", .number),
      ("Scores", .table (.custom "Team") (.custom "Score")), ("board", .custom "Scores"),
      ("best", .function [.custom "Scores"] (.custom "Team"))]⟩, [], 0⟩
    let bind (x : String) (ty : Option Ty) (value : Node) :=
      Node.ofForm (.binding x ty (some value))
    let use (x : String) := Node.ofForm (.name x)
    let tree := Node.ofForm (.block [
      bind "scores" (some (.custom "Scores")) (use "board"),
      bind "team" none (.call (use "best") [use "scores"] false),
      bind "score" (some (.custom "Score")) (use "team")])
    let after := ctx.check .builtin tree
    (∀ name, ¬ ctx.scope.Cyclic name) ∧ ctx.scope.Within (· ∉ tree.boundNames) ∧
      (∀ ty ∈ tree.declaredTys, ty.Within (· ∉ tree.boundNames)) ∧
      after.2.lookup? "scores" = some (.table (.custom "Team") .number) ∧
      after.2.lookup? "team" = some (.custom "Team") ∧ after.2.lookup? "Team" = none ∧
      after.2.diagnostics = [.mismatch "Number" "Team"] ∧
      (∀ name, ¬ after.2.scope.Cyclic name) ∧
      ∀ n ∈ after.1.item.visited, ∃ ty, n.ty = some ty ∧
        ty.Within fun name => after.2.lookup? name = none := by
  intro ctx bind use tree after
  have hacyclic : ∀ name, ¬ ctx.scope.Cyclic name := by
    let rank (name : String) : Nat :=
      if name = "board" ∨ name = "best" then 2 else if name = "Scores" then 1 else 0
    exact Scope.acyclic_of_rank rank (by decide)
  have hnames : tree.boundNames = ["scores", "team", "score"] := by
    simp [tree, bind, use, Node.call, Node.boundNames_ofForm, Form.children, Form.boundName?]
  have htys : tree.declaredTys = [.custom "Scores", .custom "Score"] := by
    simp [tree, bind, use, Node.call, Node.declaredTys_ofForm, Form.children, Form.declared?]
  have hscope : ctx.scope.Within (· ∉ tree.boundNames) := by
    rw [hnames]
    exact .of_bindings (by decide)
  have htree : ∀ ty ∈ tree.declaredTys, ty.Within (· ∉ tree.boundNames) := by
    rw [htys, hnames]
    decide
  obtain ⟨hend, hwritten, -⟩ := check_expands ctx tree hacyclic hscope htree
  exact ⟨hacyclic, hscope, htree, by decide +kernel, by decide +kernel, by decide +kernel,
    by decide +kernel, hend, hwritten⟩

end Context

end GradualScript
