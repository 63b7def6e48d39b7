import GradualScript.Proofs.Typing.Aliases
import GradualScript.Proofs.Typing.Runs

/-!
# Variables at their declared types

The annotation of a variable is resolved when the variable is declared, and the type that
was recorded is resolved again wherever the variable is used. So a variable has the type it
was declared with only if resolving twice is resolving once.

That is so exactly if every name that leads back to itself and can be reached from the
annotation is bound to a mere name (`Scope.resolve_resolve_iff`). Names that are bound to
one another in a ring are each expanded to themselves. But where a ring goes through a type
with components, such as a name bound to an array of itself, some name of the ring is left
in the resolved type and gets expanded once more (`Scope.Cyclic.exists_left`).

A type and what it resolves to accept each other only if they are the same
(`Scope.accepts_resolve_iff`). Hence a variable can be handed on to another one with the
same annotation exactly under that condition (`Context.check_declared_use`), and a name that
is bound to an array of itself breaks it (`Context.not_declared_use_of_nested`).
-/

set_option autoImplicit false

namespace GradualScript

namespace Scope

open Relation (TransGen ReflTransGen)

/-! ## Rings of names -/

/-- Whether a name is bound to nothing but another name. -/
def Renames (s : Scope) (a b : String) : Prop := s.lookup? a = some (.custom b)

/-- Whether of the names that can be reached from a type, those that lead back to themselves
are bound to mere names. -/
def CyclesRename (s : Scope) (ty : Ty) : Prop :=
  ∀ name, s.Reaches ty name → s.Cyclic name → ∃ b, s.Renames name b

variable {s : Scope} {a b c name : String} {ty : Ty}

/-- A name that is bound to another one leads to that one only. -/
theorem Renames.leads_iff (h : s.Renames a b) : s.Leads a c ↔ c = b := by
  rw [leads_of_bound h, Ty.names, List.mem_singleton]

/-- What is bound to a mere name without a binding is so with it. -/
theorem renames_of_erase : (s.erase name).Renames ≤ s.Renames := by
  intro a b h
  unfold Renames at h ⊢
  rw [lookup?_erase] at h
  by_cases ha : a = name
  · rw [if_pos ha] at h
    contradiction
  · rwa [if_neg ha] at h

/-- Only a chain of mere names expands to a name. -/
theorem renames_of_expand (h : s.expand a = .custom b) : ReflTransGen s.Renames a b := by
  induction s, a using Scope.expand.induct with
  | case1 s a hnone =>
    rw [expand_of_unbound hnone] at h
    obtain rfl := Ty.custom.inj h
    exact .refl
  | case2 s a ty hsome ih =>
    rw [expand_of_bound hsome] at h
    obtain ⟨m, rfl, hm⟩ := Ty.eq_custom_of_substitute h
    exact .head hsome (ReflTransGen.mono renames_of_erase m b (ih m hm))

/-- If every name reached from a name is bound to a mere name or not at all, it expands to a
name. -/
theorem exists_expand_eq_custom
    (h : ∀ m, ReflTransGen s.Leads a m → s.lookup? m = none ∨ ∃ b, s.Renames m b) :
    ∃ b, s.expand a = .custom b := by
  induction s, a using Scope.expand.induct with
  | case1 s a hnone => exact ⟨a, expand_of_unbound hnone⟩
  | case2 s a ty hsome ih =>
    rcases h a .refl with hnone | ⟨next, hnext⟩
    · rw [hsome] at hnone
      contradiction
    · obtain rfl : ty = .custom next := Option.some.inj (hsome.symm.trans hnext)
      rw [expand_of_bound hsome]
      apply ih next
      intro m hm
      unfold Renames
      rw [lookup?_erase]
      by_cases hma : m = a
      · exact .inl (if_pos hma)
      · rw [if_neg hma]
        exact h m (.head (hnext.leads_iff.2 rfl) (reflTransGen_of_erase hm))

/-- Where a ring of mere names closes, every name that is reached is on the ring. -/
theorem Cyclic.of_reached (ha : s.Cyclic a)
    (h : ∀ m, ReflTransGen s.Leads a m → s.Cyclic m → ∃ b, s.Renames m b)
    (hpath : ReflTransGen s.Leads a b) : s.Cyclic b := by
  induction hpath with
  | refl => exact ha
  | @tail c d hac hcd ih =>
    obtain ⟨next, hnext⟩ := h c hac ih
    obtain rfl := hnext.leads_iff.1 hcd
    obtain ⟨m, hcm, hback⟩ := Relation.TransGen.head'_iff.1 ih
    obtain rfl := hnext.leads_iff.1 hcm
    exact TransGen.tail' hback hcd

/-- On a ring of mere names every name expands to itself. -/
theorem Cyclic.expand_eq (ha : s.Cyclic a)
    (h : ∀ m, ReflTransGen s.Leads a m → s.Cyclic m → ∃ b, s.Renames m b) :
    s.expand a = .custom a := by
  obtain ⟨b, hb⟩ := exists_expand_eq_custom fun m hm => .inr (h m hm (ha.of_reached h hm))
  have hmem := ha.mem_names_expand
  rw [hb, Ty.names, List.mem_singleton] at hmem
  rw [hb, hmem]

/-- If a bound name expands to itself, all names it leads to are bound to mere names. -/
theorem exists_renames_of_expand_self (hself : s.expand a = .custom a)
    (hbound : s.lookup? a = some ty) (hpath : ReflTransGen s.Leads a b) :
    ∃ next, s.Renames b next := by
  -- From every name on the way, mere names lead on to `a`.
  suffices h : ∃ next, s.Renames b next ∧ ReflTransGen s.Renames next a by
    obtain ⟨next, hnext, -⟩ := h
    exact ⟨next, hnext⟩
  have hfirst : ∃ next, s.Renames a next ∧ ReflTransGen s.Renames next a := by
    rw [expand_of_bound hbound] at hself
    obtain ⟨next, rfl, hnext⟩ := Ty.eq_custom_of_substitute hself
    exact ⟨next, hbound, ReflTransGen.mono renames_of_erase next a (renames_of_expand hnext)⟩
  induction hpath with
  | refl => exact hfirst
  | @tail c d _ hcd ih =>
    obtain ⟨next, hnext, hon⟩ := ih
    obtain rfl := hnext.leads_iff.1 hcd
    rcases hon.cases_head with rfl | ⟨m, hm, hrest⟩
    · exact hfirst
    · exact ⟨m, hm, hrest⟩

/-- If a name leads to a ring, a name is left in its expansion that leads to the ring and
back to itself. -/
theorem Cyclic.exists_left (hname : s.Cyclic name) (hpath : ReflTransGen s.Leads a name) :
    ∃ m ∈ (s.expand a).names, s.Cyclic m ∧ ReflTransGen s.Leads m name := by
  induction s, a using Scope.expand.induct with
  | case1 s a hnone =>
    obtain ⟨m, ham, -⟩ := Relation.TransGen.head'_iff.1 (TransGen.trans_right hpath hname)
    exact absurd ham (not_leads_of_unbound hnone)
  | case2 s a ty hsome ih =>
    by_cases ha : s.Cyclic a
    · exact ⟨a, ha.mem_names_expand, ha, hpath⟩
    · -- Neither the path nor the ring comes back to `a`.
      rcases Relation.reflTransGen_iff_eq_or_transGen.1 hpath with rfl | hproper
      · exact absurd hname ha
      · obtain ⟨next, hnext, hrest⟩ := exists_leads_avoiding hproper
        obtain ⟨m, hm, hcyclic, hon⟩ := ih next (transGen_erase ha hproper hname) hrest
        exact ⟨m, (mem_names_expand_of_bound hsome).2 ⟨next, hnext, hm⟩, hcyclic.of_erase,
          reflTransGen_of_erase hon⟩

/-! ## Resolving twice -/

/-- Resolving twice is resolving once exactly if the rings that can be reached are rings of
mere names. -/
theorem resolve_resolve_iff : s.resolve (s.resolve ty) = s.resolve ty ↔ s.CyclesRename ty := by
  rw [resolve, Ty.substitute_eq_self_iff]
  constructor
  · rintro hself name ⟨start, hstart, hpath⟩ hcyclic
    obtain ⟨m, hm, hmcyclic, hon⟩ := hcyclic.exists_left hpath
    obtain ⟨found, hfound⟩ := hmcyclic.exists_bound
    have hexpand := hself m (Ty.mem_names_substitute.2 ⟨start, hstart, hm⟩)
    exact exists_renames_of_expand_self hexpand hfound hon
  · intro hrename name hname
    obtain ⟨⟨start, hstart, hpath⟩, hunbound | hcyclic⟩ := of_mem_names_resolve hname
    · exact expand_of_unbound hunbound
    · apply hcyclic.expand_eq
      intro m hm
      exact hrename m ⟨start, hstart, hpath.trans hm⟩

/-- A resolved type does not become unknown when it is resolved once more. -/
theorem eq_any_of_resolve_resolve (h : s.resolve (s.resolve ty) = .any) : s.resolve ty = .any := by
  cases hresolved : s.resolve ty with
  | primitive kind => rwa [hresolved] at h
  | custom name =>
    -- The name is not bound and stays, or it is left in its own expansion.
    have hname : name ∈ (s.resolve ty).names := by
      rw [hresolved]
      exact List.mem_singleton_self name
    have hexpand : s.expand name = .any := by rwa [hresolved] at h
    rcases (of_mem_names_resolve hname).2 with hunbound | hcyclic
    · rw [expand_of_unbound hunbound] at hexpand
      contradiction
    · have hleft := hcyclic.mem_names_expand
      rw [hexpand] at hleft
      contradiction
  | _ =>
    rw [hresolved] at h
    contradiction

/-- A resolved type accepts what it resolves to only if resolving it once more changes
nothing. -/
theorem accepts_resolve_iff :
    (s.resolve ty).accepts (s.resolve (s.resolve ty)) = true ↔
      s.resolve (s.resolve ty) = s.resolve ty := by
  have hcompatible : (s.resolve ty).compatible (s.resolve (s.resolve ty)) = true ↔
      s.resolve (s.resolve ty) = s.resolve ty :=
    (Ty.compatible_substitute_iff _).trans Ty.substitute_eq_self_iff.symm
  rw [Ty.accepts, Bool.or_eq_true, Bool.or_eq_true, hcompatible, Ty.isAny_iff, Ty.isAny_iff]
  constructor
  · rintro ((h | h) | h)
    · rw [h]
      rfl
    · rw [h, eq_any_of_resolve_resolve h]
    · exact h
  · exact .inr

/-! ## Names that occur nowhere -/

/-- Whether a name is not bound and occurs neither in a type nor in the type of any bound
name. -/
structure Fresh (s : Scope) (name : String) (ty : Ty) : Prop where
  unbound : s.lookup? name = none
  absent : name ∉ ty.names
  unused : ∀ bound found, s.lookup? bound = some found → name ∉ found.names

/-- What can be reached from a resolved type can be reached from the type. -/
theorem Reaches.of_resolve (h : s.Reaches (s.resolve ty) name) : s.Reaches ty name := by
  obtain ⟨start, hstart, hpath⟩ := h
  obtain ⟨⟨first, hfirst, hon⟩, -⟩ := of_mem_names_resolve hstart
  exact ⟨first, hfirst, hon.trans hpath⟩

/-- A name is fresh if it is not bound and occurs neither in the type nor in any binding. -/
theorem Fresh.of_bindings (hunbound : s.lookup? name = none) (habsent : name ∉ ty.names)
    (h : ∀ b ∈ s.bindings, name ∉ b.2.names) : s.Fresh name ty := by
  refine ⟨hunbound, habsent, ?_⟩
  intro bound found hfound
  exact h (bound, found) (mem_bindings hfound)

/-- A fresh name cannot be reached from the type. -/
theorem Fresh.not_reaches (h : s.Fresh name ty) : ¬ s.Reaches ty name := by
  rintro ⟨start, hstart, hpath⟩
  rcases hpath.cases_tail with rfl | ⟨m, -, found, hfound, hname⟩
  · exact h.absent hstart
  · exact h.unused m found hfound hname

end Scope

/-! ## Declaring and using a variable -/

namespace Checker

variable (c : Checker) (s : Scope) {node : Node} {name : String}

/-- A use of a name finds the resolved type of the name, or nothing, and reports a name that is
not bound. -/
theorem run_check_name (h : node.form = .name name) :
    ((c.check node).run s).result.ty = ((s.lookup? name).map s.resolve).getD .any ∧
      ((c.check node).run s).scope = s ∧
      ((c.check node).run s).reports = c.unboundReports s name := by
  obtain ⟨form, location, ty⟩ := node
  obtain rfl := h
  simp [run_check, infer, run_lookupName]

/-- A declaration without a value binds the name to its resolved type. -/
theorem run_check_declaration {declared : Ty} (h : node.form = .binding name (some declared) none) :
    ((c.check node).run s).scope = s.declare name (s.resolve declared) ∧
      ((c.check node).run s).reports = c.rebindReports s name (s.resolve declared) := by
  obtain ⟨form, location, ty⟩ := node
  obtain rfl := h
  simp [run_check, infer, run_bindName, Verdict.ofBinding]

/-- A declaration with a value reports what its value reports, a mismatch with the resolved type,
and a second binding. -/
theorem run_check_definition {declared : Ty} {value : Node}
    (h : node.form = .binding name (some declared) (some value)) :
    ((c.check node).run s).reports =
      let found := (c.check value).run s
      let expected := found.scope.resolve declared
      found.reports ++ (expected.expect found.result.ty ++
        c.rebindReports found.scope name expected) := by
  obtain ⟨form, location, ty⟩ := node
  obtain rfl := h
  simp [run_check, infer, run_bindName, Verdict.ofBinding]

end Checker

namespace Context

/-- Let a variable be declared with an annotation only, under a fresh name. The type recorded
for it is the resolved annotation, its use gives what that resolves to, and another variable
with the same annotation that takes it over holds the one against the other. -/
theorem declared_use_eq (ctx : Context) (ops : Operators) {declared : Ty} {x y : String}
    (hx : ctx.scope.Fresh x declared) (hy : ctx.scope.Fresh y declared) (hxy : x ≠ y)
    (declaration use value definition : Node)
    (hdeclaration : declaration.form = .binding x (some declared) none)
    (huse : use.form = .name x) (hvalue : value.form = .name x)
    (hdefinition : definition.form = .binding y (some declared) (some value)) :
    let bound := (ctx.check ops declaration).2
    let used := bound.check ops use
    let after := (used.2.check ops definition).2
    bound.lookup? x = some (ctx.resolve declared) ∧ bound.diagnostics = ctx.diagnostics ∧
      used.1.ty = ctx.resolve (ctx.resolve declared) ∧
      after.diagnostics = ctx.diagnostics ++
        (ctx.resolve declared).expect (ctx.resolve (ctx.resolve declared)) := by
  let c := ctx.checker ops
  let recorded := ctx.scope.resolve declared
  let t := ctx.scope.declare x recorded
  -- As `x` is fresh, binding it changes neither what the annotation resolves to nor what the
  -- recorded type does. Both uses are checked in `t`.
  have hlookup : t.lookup? x = some recorded := by
    rw [Scope.lookup?_declare, if_pos rfl]
  have hagain : t.resolve recorded = ctx.scope.resolve recorded :=
    Scope.resolve_declare fun h => hx.not_reaches h.of_resolve
  have hexpected : t.resolve declared = recorded := Scope.resolve_declare hx.not_reaches
  have hunbound : t.lookup? y = none := by
    rw [Scope.lookup?_declare, if_neg hxy.symm, hy.unbound]
  obtain ⟨hscope, hreports⟩ := c.run_check_declaration ctx.scope hdeclaration
  rw [Checker.rebindReports, hx.unbound] at hreports
  have hboundScope : (ctx.check ops declaration).2.scope = t := (scope_check _ _ _).trans hscope
  have huses {node : Node} (hnode : node.form = .name x) :
      ((c.check node).run t).result.ty = ctx.scope.resolve recorded ∧
        ((c.check node).run t).scope = t ∧ ((c.check node).run t).reports = [] := by
    have h := c.run_check_name t hnode
    rw [Checker.unboundReports, hlookup, Option.map_some, Option.getD_some, hagain] at h
    exact h
  obtain ⟨husedTy, husedScope, husedReports⟩ := huses huse
  obtain ⟨hvalueTy, hvalueScope, hvalueReports⟩ := huses hvalue
  have hdefined := c.run_check_definition t hdefinition
  simp only [hvalueTy, hvalueScope, hvalueReports, hexpected, Checker.rebindReports, hunbound,
    List.nil_append, List.append_nil] at hdefined
  intro bound used after
  have hclean : bound.diagnostics = ctx.diagnostics := by
    rw [diagnostics_check, hreports, List.append_nil]
  have hused : used.1.ty = ctx.scope.resolve recorded := by
    rw [result_check, checker_check, hboundScope]
    exact husedTy
  have husedClean : used.2.diagnostics = ctx.diagnostics := by
    rw [diagnostics_check, hclean, checker_check, hboundScope, husedReports, List.append_nil]
  have hafter : after.diagnostics =
      ctx.diagnostics ++ recorded.expect (ctx.scope.resolve recorded) := by
    rw [diagnostics_check, husedClean, checker_check, checker_check, scope_check, checker_check,
      hboundScope, husedScope, hdefined]
  refine ⟨?_, hclean, hused, hafter⟩
  rw [lookup?, hboundScope, hlookup]
  rfl

/-- Let a variable be declared in any context with an annotation only, under a fresh name.
Its use gives the type that was recorded for it, and another variable with the same
annotation takes it over without a report, exactly if the names that lead back to themselves
and are reached from the annotation are bound to mere names. Otherwise a mismatch is
reported. -/
theorem check_declared_use (ctx : Context) (ops : Operators) {declared : Ty} {x y : String}
    (hx : ctx.scope.Fresh x declared) (hy : ctx.scope.Fresh y declared) (hxy : x ≠ y)
    (declaration use value definition : Node)
    (hdeclaration : declaration.form = .binding x (some declared) none)
    (huse : use.form = .name x) (hvalue : value.form = .name x)
    (hdefinition : definition.form = .binding y (some declared) (some value)) :
    let bound := (ctx.check ops declaration).2
    let used := bound.check ops use
    let after := (used.2.check ops definition).2
    bound.lookup? x = some (ctx.resolve declared) ∧ bound.diagnostics = ctx.diagnostics ∧
      (some used.1.ty = bound.lookup? x ↔ ctx.scope.CyclesRename declared) ∧
      (ctx.scope.CyclesRename declared → after.diagnostics = ctx.diagnostics) ∧
      (¬ ctx.scope.CyclesRename declared → after.diagnostics = ctx.diagnostics ++
        [.mismatch (ctx.resolve declared).render (ctx.resolve (ctx.resolve declared)).render]) := by
  obtain ⟨hlookup, hclean, hused, hafter⟩ :=
    declared_use_eq ctx ops hx hy hxy declaration use value definition hdeclaration huse hvalue
      hdefinition
  intro bound used after
  have hsame : ctx.resolve (ctx.resolve declared) = ctx.resolve declared ↔
      ctx.scope.CyclesRename declared := Scope.resolve_resolve_iff
  have haccepts : (ctx.resolve declared).accepts (ctx.resolve (ctx.resolve declared)) = true ↔
      ctx.scope.CyclesRename declared := Scope.accepts_resolve_iff.trans hsame
  refine ⟨hlookup, hclean, ?_, ?_, ?_⟩
  · rw [hlookup, hused, Option.some_inj, hsame]
  · intro hrename
    rw [hafter, Ty.expect, if_pos (haccepts.2 hrename), List.append_nil]
  · intro hring
    rw [hafter, Ty.expect, if_neg fun h => hring (haccepts.1 h)]

/-- Two names that stand for each other lead nowhere else, and a variable declared as an
array of one of them is used as declared. -/
theorem check_declared_use_ring :
    let ctx : Context := ⟨true, ⟨[("A", .custom "B"), ("B", .custom "A")]⟩, [], 0⟩
    let declared := Ty.array (.custom "A")
    let declaration := Node.ofForm (.binding "x" (some declared) none)
    let use := Node.ofForm (.name "x")
    let definition := Node.ofForm (.binding "y" (some declared) (some use))
    let bound := (ctx.check .builtin declaration).2
    let used := bound.check .builtin use
    let after := (used.2.check .builtin definition).2
    ctx.scope.Fresh "x" declared ∧ ctx.scope.Fresh "y" declared ∧
      ctx.scope.CyclesRename declared ∧ some used.1.ty = bound.lookup? "x" ∧
      after.diagnostics = [] := by
  intro ctx declared declaration use definition bound used after
  have hx : ctx.scope.Fresh "x" declared := .of_bindings rfl (by decide) (by decide)
  have hy : ctx.scope.Fresh "y" declared := .of_bindings rfl (by decide) (by decide)
  have hrename : ctx.scope.CyclesRename declared := by
    intro name _ hcyclic
    obtain ⟨ty, hty⟩ := hcyclic.exists_bound
    have hmem : (name, ty) ∈ [("A", Ty.custom "B"), ("B", Ty.custom "A")] :=
      Scope.mem_bindings hty
    simp only [List.mem_cons, Prod.mk.injEq, List.not_mem_nil, or_false] at hmem
    rcases hmem with ⟨-, rfl⟩ | ⟨-, rfl⟩
    · exact ⟨_, hty⟩
    · exact ⟨_, hty⟩
  obtain ⟨-, -, hused, hafter, -⟩ :=
    check_declared_use ctx .builtin hx hy (by decide) declaration use use definition rfl rfl rfl rfl
  exact ⟨hx, hy, hrename, hused.2 hrename, hafter hrename⟩

/-- A name bound to an array of itself breaks this. A variable declared by that name is
recorded as an array of it and used as an array of such arrays, and it cannot be handed on to
another variable declared by that name. -/
theorem not_declared_use_of_nested :
    let ctx : Context := ⟨false, ⟨[("A", .array (.custom "A"))]⟩, [], 0⟩
    let declared := Ty.custom "A"
    let declaration := Node.ofForm (.binding "x" (some declared) none)
    let use := Node.ofForm (.name "x")
    let definition := Node.ofForm (.binding "y" (some declared) (some use))
    let bound := (ctx.check .builtin declaration).2
    let used := bound.check .builtin use
    let after := (used.2.check .builtin definition).2
    ctx.scope.Fresh "x" declared ∧ ctx.scope.Fresh "y" declared ∧
      bound.lookup? "x" = some (.array (.custom "A")) ∧
      used.1.ty = .array (.array (.custom "A")) ∧
      after.diagnostics = [.mismatch "Array<A>" "Array<Array<A>>"] := by
  intro ctx declared declaration use definition bound used after
  have hx : ctx.scope.Fresh "x" declared := .of_bindings rfl (by decide) (by decide)
  have hy : ctx.scope.Fresh "y" declared := .of_bindings rfl (by decide) (by decide)
  have hbound : ctx.scope.lookup? "A" = some (.array (.custom "A")) := rfl
  have herased : (ctx.scope.erase "A").lookup? "A" = none := rfl
  have hexpand : ctx.scope.expand "A" = .array (.custom "A") :=
    (Scope.expand_of_bound hbound).trans (congrArg Ty.array (Scope.expand_of_unbound herased))
  have honce : ctx.resolve declared = .array (.custom "A") := hexpand
  have htwice : ctx.resolve (.array (.custom "A")) = .array (.array (.custom "A")) :=
    congrArg Ty.array hexpand
  obtain ⟨hlookup, -, hused, hafter⟩ :=
    declared_use_eq ctx .builtin hx hy (by decide) declaration use use definition rfl rfl rfl rfl
  rw [honce] at hlookup
  rw [honce, htwice] at hused hafter
  exact ⟨hx, hy, hlookup, hused, hafter⟩

end Context

end GradualScript
