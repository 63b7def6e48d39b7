import GradualScript.Proofs.Typing.Audit

/-!
# Self calls and calls that write the receiver out

A self call passes its receiver in front of the arguments, without its being written among
them. Written out, it would be one argument more, of a type that is not known. A self call
does without that argument by leaving the first parameter out.

This comes to the same for every function that has a parameter for the receiver, and for
everything else that is called. For a function without parameters there is none to leave out,
and the receiver is not counted against it: if no arguments are written, the self call passes,
where the call that writes the receiver out reports one argument too many
(`Verdict.tally_ofCall_receiver_iff`, `Context.check_selfCall`).
-/

set_option autoImplicit false

namespace GradualScript

/-- Whether something is called that takes no arguments, not even a receiver. -/
def Ty.takesNothing : Ty → Bool
  | .function [] _ => true
  | _ => false

namespace Verdict

variable (callee : Ty) (arguments : List Ty)

/-- Of the written arguments of a self call the same are rejected as when the receiver is
written in front of them, since a receiver of unknown type fits every parameter. -/
theorem rejectedArguments_receiver :
    callee.rejectedArguments (.any :: arguments) false =
      callee.rejectedArguments arguments true := by
  cases callee with
  | function params result =>
    cases params with
    | nil => rfl
    | cons param params => simp [Ty.rejectedArguments, openParams, Ty.misfits]
  | _ => rfl

/-- With the receiver written out a call has the wrong number of arguments if the self call
has, and besides if a function without parameters is passed nothing but a receiver. -/
theorem miscounts_receiver :
    (callee.miscounts (.any :: arguments) false).toNat =
      (callee.miscounts arguments true).toNat +
        (callee.takesNothing && arguments.isEmpty).toNat := by
  cases callee with
  | function params result =>
    cases params with
    | nil => cases arguments <;> rfl
    | cons param params => simp [Ty.miscounts, openParams, Ty.takesNothing, bne]
  | _ => rfl

/-- A call reports as much of each kind with the receiver written out, except that it counts
a receiver that is passed on its own to a function without parameters. -/
theorem tally_ofCall_receiver_iff (fault : Fault) :
    tally (ofCall callee arguments true).reports fault =
        tally (ofCall callee (.any :: arguments) false).reports fault ↔
      ¬ (fault = .arity ∧ callee.takesNothing = true ∧ arguments = []) := by
  have hcount : tally (ofCall callee (.any :: arguments) false).reports fault =
      tally (ofCall callee arguments true).reports fault +
        (fault == .arity && (callee.takesNothing && arguments.isEmpty)).toNat := by
    rw [tally_ofCall, tally_ofCall]
    cases fault with
    | arity => exact miscounts_receiver callee arguments
    | mismatch => exact rejectedArguments_receiver callee arguments
    | _ => rfl
  rw [hcount, Nat.left_eq_add, Bool.toNat_eq_zero, ← Bool.not_eq_true]
  simp

/-- A self call of a function reports the number of arguments if there is no parameter for each
of them and for the receiver, or too many. -/
theorem tally_ofCall_arity_iff {params : List Ty} (result : Ty)
    (h : ¬ ((Ty.function params result).takesNothing = true ∧ arguments = [])) :
    tally (ofCall (.function params result) arguments true).reports .arity = 1 ↔
      params.length ≠ arguments.length + 1 := by
  rw [tally_ofCall, Ty.miscounts, openParams, if_pos rfl, List.length_drop, Bool.toNat_eq_one,
    bne_iff_ne]
  cases params with
  | nil =>
    have hsome : arguments ≠ [] := fun hnil => h ⟨rfl, hnil⟩
    simp [eq_comm, hsome]
  | cons param params => simp

end Verdict

namespace Checker

variable (c : Checker) (callee : Node) (arguments : List Node) (s : Scope)

/-- A call checks what is called and its arguments, and then goes by their types. -/
theorem run_check_call (selfCall : Bool) :
    let f := (c.check callee).run s
    let given := (c.checkEach arguments).run f.scope
    let verdict := Verdict.ofCall f.result.ty (given.result.map (·.ty)) selfCall
    let outcome := (c.check (.call callee arguments selfCall)).run s
    outcome.result.ty = verdict.ty ∧ outcome.scope = given.scope ∧
      outcome.reports = f.reports ++ (given.reports ++ verdict.reports) := by
  simp [Node.call, Node.ofForm, run_check, infer, checkArguments]

/-- A receiver that is not bound adds an argument of unknown type when it is written in front
of the arguments, and nothing else. -/
theorem run_check_receiver {receiver : String} (hlenient : c.strict = false)
    (hfree : s.lookup? receiver = none)
    (hbound : receiver ∉ (Node.call callee arguments true).boundNames) :
    let f := (c.check callee).run s
    let given := (c.checkEach arguments).run f.scope
    let verdict := Verdict.ofCall f.result.ty (.any :: given.result.map (·.ty)) false
    let outcome := (c.check (.call callee (.ofForm (.name receiver) :: arguments) false)).run s
    outcome.result.ty = verdict.ty ∧ outcome.scope = given.scope ∧
      outcome.reports = f.reports ++ (given.reports ++ verdict.reports) := by
  intro f given
  have hcallee : receiver ∉ callee.boundNames := by
    intro hmem
    apply hbound
    rw [Node.call, Node.boundNames_ofForm]
    simp [Form.children, hmem]
  have hunbound : f.scope.lookup? receiver = none := (c.lookup?_check callee hcallee s).trans hfree
  have hpassed : (c.checkEach (.ofForm (.name receiver) :: arguments)).run f.scope =
      ⟨⟨⟨.name receiver, .start, some .any⟩, .any⟩ :: given.result, given.scope,
        given.reports⟩ := by
    rw [run_checkEach_cons, Node.ofForm, run_check]
    simp [infer, run_lookupName, unboundReports, hunbound, hlenient, given]
  have hcall := c.run_check_call callee (.ofForm (.name receiver) :: arguments) s false
  simp only at hcall
  rw [hpassed] at hcall
  exact hcall

end Checker

namespace Context

/-- In a lenient context a self call is checked, and besides it the call that writes a
receiver in front of the arguments that is not bound. Both check what is called and the
arguments in the same way, and then find the same type and leave the same bindings. What they
report themselves is as much of each kind, except where the self call passes nothing but its
receiver to a function without parameters: then only the other call reports the number of
arguments. That exception apart, a self call of a function reports the number of arguments
exactly if there are not as many parameters as arguments and one more. -/
theorem check_selfCall (ctx : Context) (hlenient : ctx.strict = false) (ops : Operators)
    (callee : Node) (arguments : List Node) (receiver : String)
    (hfree : ctx.lookup? receiver = none)
    (hbound : receiver ∉ (Node.call callee arguments true).boundNames) :
    let calleeTy := (ctx.check ops callee).1.ty
    let before := ((ctx.check ops callee).2.check ops (.ofForm (.list arguments))).2
    let selfCall := ctx.check ops (.call callee arguments true)
    let written := ctx.check ops (.call callee (.ofForm (.name receiver) :: arguments) false)
    selfCall.1.ty = written.1.ty ∧ selfCall.2.scope = written.2.scope ∧
      ∃ own own', selfCall.2.diagnostics = before.diagnostics ++ own ∧
        written.2.diagnostics = before.diagnostics ++ own' ∧
        (∀ fault, tally own fault = tally own' fault ↔
          ¬ (fault = .arity ∧ calleeTy.takesNothing = true ∧ arguments = [])) ∧
        ∀ params result, calleeTy = .function params result →
          ¬ (calleeTy.takesNothing = true ∧ arguments = []) →
          (tally own .arity = 1 ↔ params.length ≠ arguments.length + 1) := by
  let c := ctx.checker ops
  let f := (c.check callee).run ctx.scope
  let given := (c.checkEach arguments).run f.scope
  let tys := given.result.map (·.ty)
  -- Both calls come to `f` and `given`, so only their verdicts on the types are to be compared.
  obtain ⟨hty, hscope, hreports⟩ := c.run_check_call callee arguments ctx.scope true
  obtain ⟨hty', hscope', hreports'⟩ :=
    c.run_check_receiver callee arguments ctx.scope hlenient hfree hbound
  have hlength : tys.length = arguments.length := by simp [tys, given]
  have hnil : tys = [] ↔ arguments = [] := by
    rw [← List.length_eq_zero_iff, hlength, List.length_eq_zero_iff]
  intro calleeTy before selfCall written
  have hcallee : calleeTy = f.result.ty := by
    show (ctx.check ops callee).1.ty = _
    rw [result_check]
  have hbefore : before.diagnostics = ctx.diagnostics ++ (f.reports ++ given.reports) := by
    show ((ctx.check ops callee).2.check ops _).2.diagnostics = _
    rw [diagnostics_check, diagnostics_check, checker_check, scope_check, List.append_assoc]
    simp [Node.ofForm, Checker.run_check, Checker.infer, f, given, c]
  refine ⟨?_, ?_, (Verdict.ofCall f.result.ty tys true).reports,
    (Verdict.ofCall f.result.ty (.any :: tys) false).reports, ?_, ?_, ?_, ?_⟩
  · show (ctx.check ops _).1.ty = (ctx.check ops _).1.ty
    rw [result_check, result_check, hty, hty', Verdict.ofCall_ty, Verdict.ofCall_ty]
  · show (ctx.check ops _).2.scope = (ctx.check ops _).2.scope
    rw [scope_check, scope_check, hscope, hscope']
  · rw [hbefore, diagnostics_check, hreports, List.append_assoc, List.append_assoc]
  · rw [hbefore, diagnostics_check, hreports', List.append_assoc, List.append_assoc]
  · intro fault
    rw [← hnil, hcallee]
    exact Verdict.tally_ofCall_receiver_iff _ _ fault
  · intro params result hfunction hsome
    rw [hfunction, ← hnil] at hsome
    rw [← hcallee, hfunction, Verdict.tally_ofCall_arity_iff tys result hsome, hlength]

/-- One argument is missing and the other one does not fit. Both calls say so, and each of them
counts what it has been given. -/
theorem check_selfCall_push :
    let ctx : Context :=
      ⟨false, ⟨[("push", .function [.custom "Stack", .number, .string] .nil)]⟩, [], 0⟩
    let push := Node.ofForm (.name "push")
    let arguments := [Node.ofForm (.text "a")]
    let selfCall := ctx.check .builtin (.call push arguments true)
    let written := ctx.check .builtin (.call push (.ofForm (.name "stack") :: arguments) false)
    ctx.lookup? "stack" = none ∧ "stack" ∉ (Node.call push arguments true).boundNames ∧
      selfCall.1.ty = written.1.ty ∧ selfCall.2.scope = written.2.scope ∧
      selfCall.2.diagnostics = [.arity 2 1, .mismatch "Number" "String"] ∧
      written.2.diagnostics = [.arity 3 2, .mismatch "Number" "String"] := by
  intro ctx push arguments selfCall written
  have hbound : "stack" ∉ (Node.call push arguments true).boundNames := by decide +kernel
  obtain ⟨hty, hscope, -⟩ := check_selfCall ctx rfl .builtin push arguments "stack" rfl hbound
  exact ⟨rfl, hbound, hty, hscope, by decide +kernel, by decide +kernel⟩

/-- A function without parameters cannot be passed a receiver. This is reported only if the
receiver is written out. -/
theorem not_selfCall_of_no_params :
    let ctx : Context := ⟨false, ⟨[("f", .function [] .number)]⟩, [], 0⟩
    let f := Node.ofForm (.name "f")
    let selfCall := ctx.check .builtin (.call f [] true)
    let written := ctx.check .builtin (.call f [.ofForm (.name "x")] false)
    ctx.lookup? "x" = none ∧ "x" ∉ (Node.call f [] true).boundNames ∧
      selfCall.2.diagnostics = [] ∧ written.2.diagnostics = [.arity 0 1] := by
  intro ctx f selfCall written
  have hbound : "x" ∉ (Node.call f [] true).boundNames := by decide +kernel
  exact ⟨rfl, hbound, by decide +kernel, by decide +kernel⟩

end Context

end GradualScript
