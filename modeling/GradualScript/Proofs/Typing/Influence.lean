import GradualScript.Proofs.Typing.DeclaredUse
import GradualScript.Proofs.Typing.Sessions

/-!
# How far a binding reaches

Variables and named types share one space of names. So whatever binds a name, be it a variable in
a tree that is checked, may change what that name stands for in types that were bound long before.
But it does so only where the name can be reached. A type resolves after a session to what it
resolved to before, unless the session binds a name that the type reaches
(`Context.resolve_performAll`). A name that is used has the type that it had, unless the session
binds a name that it leads to, itself included (`Context.useTy_performAll`).

Declaring one name and checking one tree are the sessions with a single act
(`Context.binding_influence`).
-/

set_option autoImplicit false

namespace GradualScript

open Relation (ReflTransGen)

namespace Scope

variable {s t : Scope} {name other : String} {ty : Ty}

/-- The type that a name has where it is used. -/
def useTy (s : Scope) (name : String) : Ty := ((s.lookup? name).map s.resolve).getD .any

/-- A name leads to itself and to what is reached from the type that it is bound to. -/
theorem leads_star_iff :
    ReflTransGen s.Leads name other ↔
      name = other ∨ ∃ ty, s.lookup? name = some ty ∧ s.Reaches ty other := by
  constructor
  · intro hpath
    rcases hpath.cases_head with heq | ⟨next, ⟨ty, hty, hnext⟩, hrest⟩
    · exact .inl heq
    · exact .inr ⟨ty, hty, next, hnext, hrest⟩
  · rintro (rfl | ⟨ty, hty, start, hstart, hpath⟩)
    · exact .refl
    · exact .head ⟨ty, hty, hstart⟩ hpath

/-- Scopes that bind alike all names to which a name leads give it the same type. -/
theorem useTy_congr (h : ∀ m, ReflTransGen s.Leads name m → s.lookup? m = t.lookup? m) :
    s.useTy name = t.useTy name := by
  rw [useTy, useTy, ← h name .refl]
  cases hname : s.lookup? name with
  | none => rfl
  | some ty =>
    have hresolve : s.resolve ty = t.resolve ty :=
      resolve_congr fun m hm => h m (leads_star_iff.2 (.inr ⟨ty, hname, hm⟩))
    rw [Option.map_some, Option.map_some, hresolve]

end Scope

namespace Context

variable (ctx : Context)

/-- A session does not change what a type resolves to that reaches none of the names it binds. -/
theorem resolve_performAll (acts : List Act) {ty : Ty}
    (h : ∀ act ∈ acts, ∀ name ∈ act.boundNames, ¬ ctx.scope.Reaches ty name) :
    (ctx.performAll acts).resolve ty = ctx.resolve ty := by
  symm
  apply Scope.resolve_congr
  intro name hname
  exact (ctx.lookup?_performAll acts fun act hact hbound => h act hact name hbound hname).symm

/-- A session does not change the type of a name that leads to none of the names it binds. -/
theorem useTy_performAll (acts : List Act) {name : String}
    (h : ∀ act ∈ acts, ∀ m ∈ act.boundNames, ¬ ReflTransGen ctx.scope.Leads name m) :
    (ctx.performAll acts).scope.useTy name = ctx.scope.useTy name := by
  symm
  apply Scope.useTy_congr
  intro m hm
  exact (ctx.lookup?_performAll acts fun act hact hbound => h act hact m hbound hm).symm

/-- The check of a name gives its type in the scope at hand. -/
theorem ty_check_name (ops : Operators) {use : Node} {name : String}
    (huse : use.form = .name name) :
    (ctx.check ops use).1.ty = ctx.scope.useTy name := by
  rw [result_check]
  exact ((ctx.checker ops).run_check_name ctx.scope huse).1

/-- Declaring a name in any context does not change what a type resolves to that does not reach
the name. A check of any tree changes the type with which a name is used later on only if the tree
binds that name, or binds some name that can be reached from the type that is stored for it. -/
theorem binding_influence :
    (∀ name bound ty, ¬ ctx.scope.Reaches ty name →
      (ctx.declare name bound).2.resolve ty = ctx.resolve ty) ∧
    ∀ (ops : Operators) (tree use : Node) (name : String), use.form = .name name →
      ((ctx.check ops tree).2.check ops use).1.ty ≠ (ctx.check ops use).1.ty →
        name ∈ tree.boundNames ∨
          ∃ ty, ctx.lookup? name = some ty ∧ ∃ m ∈ tree.boundNames, ctx.scope.Reaches ty m := by
  refine ⟨fun name bound ty hreach => ?_, fun ops tree use name huse hchanged => ?_⟩
  · refine ctx.resolve_performAll [.declare name bound] (List.forall_mem_singleton.2 ?_)
    exact List.forall_mem_singleton.2 hreach
  · have hled : ∃ m ∈ tree.boundNames, ReflTransGen ctx.scope.Leads name m := by
      apply Classical.byContradiction
      intro hnone
      have hapart : ∀ m ∈ tree.boundNames, ¬ ReflTransGen ctx.scope.Leads name m :=
        fun m hm hpath => hnone ⟨m, hm, hpath⟩
      have hsame := ctx.useTy_performAll [.check ops tree] (List.forall_mem_singleton.2 hapart)
      rw [ty_check_name _ ops huse, ty_check_name _ ops huse] at hchanged
      exact hchanged hsame
    obtain ⟨m, hm, hpath⟩ := hled
    rcases Scope.leads_star_iff.1 hpath with rfl | ⟨ty, hty, hreach⟩
    · exact .inl hm
    · exact .inr ⟨ty, hty, m, hm, hreach⟩

/-- A variable takes the name of an alias that another alias mentions, and a variable of the latter
type becomes a table of texts. A type in which the name does not occur stays what it was. -/
theorem binding_influence_point :
    let ctx : Context := ⟨false, ⟨[("Coord", .number), ("Point", .table .string (.custom "Coord")),
      ("Flag", .boolean), ("p", .custom "Point")]⟩, [], 0⟩
    let tree := Node.ofForm (.binding "Coord" none (some (.ofForm (.text "a"))))
    let use := Node.ofForm (.name "p")
    let flags := Ty.array (.custom "Flag")
    (ctx.check .builtin use).1.ty = .table .string .number ∧
      ((ctx.check .builtin tree).2.check .builtin use).1.ty = .table .string .string ∧
      (∃ ty, ctx.lookup? "p" = some ty ∧ ctx.scope.Reaches ty "Coord") ∧
      ¬ ctx.scope.Reaches flags "Coord" ∧
      (ctx.declare "Coord" .string).2.resolve flags = ctx.resolve flags := by
  intro ctx tree use flags
  have hnames : tree.boundNames = ["Coord"] := by
    simp [tree, Node.boundNames_ofForm, Form.children, Form.boundName?]
  have hbefore : (ctx.check .builtin use).1.ty = .table .string .number := by decide +kernel
  have hafter : ((ctx.check .builtin tree).2.check .builtin use).1.ty = .table .string .string := by
    decide +kernel
  have hapart : ¬ ctx.scope.Reaches flags "Coord" := by
    have hflag : ctx.scope.lookup? "Flag" = some .boolean := rfl
    rintro ⟨start, hstart, hpath⟩
    obtain rfl : start = "Flag" := List.mem_singleton.1 hstart
    rcases hpath.cases_head with heq | ⟨next, hnext, -⟩
    · exact absurd heq (by decide)
    · exact List.not_mem_nil ((Scope.leads_of_bound hflag).1 hnext)
  obtain ⟨hresolve, huses⟩ := binding_influence ctx
  refine ⟨hbefore, hafter, ?_, hapart, hresolve "Coord" .string flags hapart⟩
  have hreached := huses .builtin tree use "p" rfl (by rw [hbefore, hafter]; decide)
  rw [hnames] at hreached
  simpa using hreached

end Context

end GradualScript
