import GradualScript.Proofs.Typing.NameEvents

/-!
# Sessions

A session uses one context for one act after the other: a name is declared, a diagnostic is
recorded, or a tree is checked.

Whatever an act is, it leaves the context as strict as it was, and all diagnostics with the
count of them go on from those before (`Context.Continues`). What an act does to names can be
read off the act: it binds the names in `Act.boundNames` and no others, and leaves those others
with the types they had. For a check these are the names of all bindings in the tree, however
deep, and whether or not something is reported on the way. Both carry over from acts to
sessions by induction on the acts.
-/

set_option autoImplicit false

namespace GradualScript

/-- What can be done with a context. -/
inductive Act where
  | declare (name : String) (ty : Ty)
  | record (d : Diagnostic)
  | check (ops : Operators) (tree : Node)

def Act.boundNames : Act → List String
  | .declare name _ => [name]
  | .record _ => []
  | .check _ tree => tree.boundNames

namespace Context

def perform (ctx : Context) : Act → Context
  | .declare name ty => (ctx.declare name ty).2
  | .record d => ctx.record d
  | .check ops tree => (ctx.check ops tree).2

def performAll (ctx : Context) (acts : List Act) : Context := acts.foldl perform ctx

/-- A session is its first act and the rest of it. -/
theorem performAll_cons (ctx : Context) (act : Act) (rest : List Act) :
    ctx.performAll (act :: rest) = (ctx.perform act).performAll rest :=
  rfl

/-! ## Diagnostics -/

/-- A context goes on from another one: some diagnostics have been added, and counted. -/
structure Continues (ctx : Context) (added : List Diagnostic) (ctx' : Context) : Prop where
  strict_eq : ctx'.strict = ctx.strict
  diagnostics_eq : ctx'.diagnostics = ctx.diagnostics ++ added
  errorCount_eq : ctx'.errorCount = ctx.errorCount + added.length

namespace Continues

variable {ctx ctx' ctx'' : Context} {added added' : List Diagnostic}

/-- A context goes on from itself with nothing added. -/
theorem refl (ctx : Context) : ctx.Continues [] ctx := ⟨rfl, (List.append_nil _).symm, rfl⟩

/-- What has been added in two parts of a session has been added, one after the other. -/
theorem trans (h : ctx.Continues added ctx') (h' : ctx'.Continues added' ctx'') :
    ctx.Continues (added ++ added') ctx'' where
  strict_eq := h'.strict_eq.trans h.strict_eq
  diagnostics_eq := by rw [h'.diagnostics_eq, h.diagnostics_eq, List.append_assoc]
  errorCount_eq := by
    rw [h'.errorCount_eq, h.errorCount_eq, List.length_append, Nat.add_assoc]

end Continues

/-- Every act only adds diagnostics. -/
theorem continues_perform (ctx : Context) (act : Act) :
    ∃ added, ctx.Continues added (ctx.perform act) := by
  cases act with
  | declare name ty => exact ⟨[], rfl, (List.append_nil _).symm, rfl⟩
  | record d => exact ⟨[d], rfl, rfl, rfl⟩
  | check ops tree =>
    refine ⟨(((ctx.checker ops).check tree).run ctx.scope).reports, ?_⟩
    rw [perform, check_eq]
    exact ⟨rfl, rfl, rfl⟩

/-- A session goes on from its context: it only adds diagnostics, and counts them. -/
theorem continues_performAll (ctx : Context) (acts : List Act) :
    ∃ added, ctx.Continues added (ctx.performAll acts) := by
  induction acts generalizing ctx with
  | nil => exact ⟨[], .refl ctx⟩
  | cons act rest ih =>
    obtain ⟨first, hfirst⟩ := ctx.continues_perform act
    obtain ⟨others, hothers⟩ := ih (ctx.perform act)
    exact ⟨first ++ others, hfirst.trans hothers⟩

/-- From the start of a session on, all diagnostics are counted, and nothing else. -/
theorem errorCount_performAll_init (strict : Bool) (acts : List Act) :
    ((init strict).performAll acts).errorCount =
      ((init strict).performAll acts).diagnostics.length := by
  obtain ⟨added, h⟩ := (init strict).continues_performAll acts
  rw [h.errorCount_eq, h.diagnostics_eq, List.length_append]
  rfl

/-! ## Names -/

/-- After a check those names are bound that were, and all that are bound in the tree. -/
theorem isDeclared_check (ctx : Context) (ops : Operators) (tree : Node) (name : String) :
    (ctx.check ops tree).2.isDeclared name = true ↔
      ctx.isDeclared name = true ∨ name ∈ tree.boundNames := by
  have hbinds : (ctx.check ops tree).2.isDeclared =
      NameEvent.boundAfter ctx.isDeclared tree.events := by
    funext other
    rw [isDeclared, lookup?, scope_check]
    exact congrFun (Checker.binds_check tree ctx.scope) other
  rw [hbinds, NameEvent.boundAfter, Bool.or_eq_true, List.contains_iff_mem,
    Node.mem_boundNames_iff]

/-- A check leaves the other names as they were. -/
theorem lookup?_check (ctx : Context) (ops : Operators) (tree : Node) {name : String}
    (h : name ∉ tree.boundNames) : (ctx.check ops tree).2.lookup? name = ctx.lookup? name := by
  rw [lookup?, scope_check]
  exact (ctx.checker ops).lookup?_check tree h ctx.scope

/-- After an act the names are bound that were bound before, and those that the act binds. -/
theorem isDeclared_perform (ctx : Context) (act : Act) (name : String) :
    (ctx.perform act).isDeclared name = true ↔
      ctx.isDeclared name = true ∨ name ∈ act.boundNames := by
  cases act with
  | declare bound ty =>
    by_cases hname : name = bound <;>
      simp [perform, declare, isDeclared, lookup?, Scope.lookup?_declare, Act.boundNames, hname]
  | record d => simp [perform, record, isDeclared, lookup?, Act.boundNames]
  | check ops tree => exact ctx.isDeclared_check ops tree name

/-- An act leaves what names are bound to that it does not bind. -/
theorem lookup?_perform (ctx : Context) (act : Act) {name : String} (h : name ∉ act.boundNames) :
    (ctx.perform act).lookup? name = ctx.lookup? name := by
  cases act with
  | declare bound ty =>
    rw [Act.boundNames, List.mem_singleton] at h
    exact (Scope.lookup?_declare _ _ _ _).trans (if_neg h)
  | record d => rfl
  | check ops tree => exact ctx.lookup?_check ops tree h

/-- In a session those names get bound that some act binds. -/
theorem isDeclared_performAll (ctx : Context) (acts : List Act) (name : String) :
    (ctx.performAll acts).isDeclared name = true ↔
      ctx.isDeclared name = true ∨ ∃ act ∈ acts, name ∈ act.boundNames := by
  induction acts generalizing ctx with
  | nil => simp [performAll]
  | cons act rest ih =>
    have hrest := ih (ctx.perform act)
    rw [isDeclared_perform, or_assoc] at hrest
    simpa [performAll_cons] using hrest

/-- A name that no act of a session binds is as it was before the session. -/
theorem lookup?_performAll (ctx : Context) (acts : List Act) {name : String}
    (h : ∀ act ∈ acts, name ∉ act.boundNames) :
    (ctx.performAll acts).lookup? name = ctx.lookup? name := by
  induction acts generalizing ctx with
  | nil => rfl
  | cons act rest ih =>
    rw [List.forall_mem_cons] at h
    exact (ih (ctx.perform act) h.2).trans (ctx.lookup?_perform act h.1)

/-! ## Sessions -/

/-- In a session with a new context, strict or not, and after any acts: the context is as
strict as it was, and the number of errors is that of the diagnostics, so that the session has
passed if there are none. The next act, whatever it is, only adds diagnostics behind those
there are. If it is a check, then besides the names bound before just those of all bindings in
the tree are bound after it, and every other name has the type it had. -/
theorem session_frame (strict : Bool) (acts : List Act) :
    let ctx := (init strict).performAll acts
    ctx.strict = strict ∧ ctx.errorCount = ctx.diagnostics.length ∧
      (ctx.passed = true ↔ ctx.diagnostics = []) ∧
      (∀ act, ctx.diagnostics <+: (ctx.perform act).diagnostics) ∧
      ∀ ops tree,
        let after := (ctx.check ops tree).2
        (∀ name, after.isDeclared name = true ↔
          ctx.isDeclared name = true ∨ name ∈ tree.boundNames) ∧
        ∀ name ∉ tree.boundNames, after.lookup? name = ctx.lookup? name := by
  intro ctx
  have hcount : ctx.errorCount = ctx.diagnostics.length := errorCount_performAll_init strict acts
  obtain ⟨all, hall⟩ := (init strict).continues_performAll acts
  refine ⟨hall.strict_eq, hcount, ?_, fun act => ?_, fun ops tree => ?_⟩
  · rw [passed, hcount, beq_iff_eq, List.length_eq_zero_iff]
  · obtain ⟨added, hnext⟩ := ctx.continues_perform act
    rw [hnext.diagnostics_eq]
    exact List.prefix_append _ _
  · exact ⟨ctx.isDeclared_check ops tree, fun name hname => ctx.lookup?_check ops tree hname⟩

/-- A call of a number binds two names in its arguments, one of them again. The name that one
of the bindings refers to is not bound, and does not get bound. All of this is reported, and
the number keeps its type. -/
theorem session_frame_uncallable :
    let use (x : String) := Node.ofForm (.name x)
    let bind (x : String) (value : Node) := Node.ofForm (.binding x none (some value))
    let acts : List Act := [.declare "n" .number, .record (.notCallable "Nil"),
      .check .builtin (bind "s" (use "n"))]
    let tree := Node.call (use "n") [bind "a" (use "u"), bind "s" (.ofForm .nil)] false
    let ctx := (init true).performAll acts
    let after := (ctx.check .builtin tree).2
    ctx.errorCount = 1 ∧ ctx.passed = false ∧
      after.diagnostics = [.notCallable "Nil", .unresolved "u", .redeclared "s" "Number" "Nil",
        .notCallable "Number"] ∧
      after.isDeclared "a" = true ∧ after.isDeclared "u" = false ∧
      "n" ∉ tree.boundNames ∧ after.lookup? "n" = some .number := by
  intro use bind acts tree ctx after
  obtain ⟨-, hcount, hpassed, -, hnext⟩ := session_frame true acts
  obtain ⟨hnames, hothers⟩ := hnext .builtin tree
  have hdiagnostics : ctx.diagnostics = [.notCallable "Nil"] := by decide +kernel
  have hreports : after.diagnostics = [.notCallable "Nil", .unresolved "u",
    .redeclared "s" "Number" "Nil", .notCallable "Number"] := by decide +kernel
  have ha : "a" ∈ tree.boundNames := by decide +kernel
  have hu : ctx.isDeclared "u" = false ∧ "u" ∉ tree.boundNames := by decide +kernel
  have hn : "n" ∉ tree.boundNames := by decide +kernel
  refine ⟨?_, ?_, hreports, (hnames "a").2 (.inr ha), ?_, hn, (hothers "n" hn).trans ?_⟩
  · rw [hcount, hdiagnostics]
    rfl
  · rw [← Bool.not_eq_true, hpassed, hdiagnostics]
    exact List.cons_ne_nil _ _
  · rw [← Bool.not_eq_true, hnames "u", hu.1]
    simp [hu.2]
  · decide +kernel

end Context

end GradualScript
