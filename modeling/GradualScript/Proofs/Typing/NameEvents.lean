import GradualScript.Proofs.Typing.Strictness

/-!
# Names in the order of events

For the names in a tree a check is a sequence of events (`Node.events`): a name is used, or
it is bound. The events of a tree are those of its children, in the order of visits, and
then the one at its root, if there is one. Of every event the names bound so far tell
whether there is something wrong with it (`NameEvent.fault?`): a name is used that is not
bound, or bound that is.

A strict check reports just these faults, in the order of events, and other things in
between (`Context.check_reports_names`). The events do not depend on types, and so neither
does what is reported about names. The proof goes along with the check, node by node:
`Reported` says of a part of it that its reports and the names bound after it are as its
events say. Which names are bound after a check has nothing to do with its being strict
(`Checker.binds_check`).
-/

set_option autoImplicit false

namespace GradualScript

/-- What happens to a name at a node. -/
inductive NameEvent where
  | use (name : String)
  | bind (name : String)
deriving DecidableEq

/-- What can be wrong with an event. -/
inductive NameFault where
  | unresolved (name : String)
  | redeclared (name : String)
deriving DecidableEq

def Form.event? : Form → Option NameEvent
  | .name x => some (.use x)
  | .binding x _ _ => some (.bind x)
  | _ => none

/-- The uses and bindings of names in a tree, in the order in which a check comes to
them. -/
def Node.events (node : Node) : List NameEvent := node.visited.filterMap (·.form.event?)

def Diagnostic.nameFault? : Diagnostic → Option NameFault
  | .unresolved name => some (.unresolved name)
  | .redeclared name _ _ => some (.redeclared name)
  | _ => none

/-- What is said about names in some reports. -/
def nameFaults (ds : List Diagnostic) : List NameFault := ds.filterMap Diagnostic.nameFault?

namespace NameEvent

/-- The names that are bound after some events: those that were bound before and those that
the events bind. -/
def boundAfter (bound : String → Bool) (es : List NameEvent) (name : String) : Bool :=
  bound name || es.contains (.bind name)

/-- A name must be bound when it is used, and must not be when it is bound. -/
def fault? (bound : String → Bool) : NameEvent → Option NameFault
  | .use name => if bound name then none else some (.unresolved name)
  | .bind name => if bound name then some (.redeclared name) else none

/-- The faults of events one after the other, each of which goes by the names bound until
then. -/
def faults (bound : String → Bool) : List NameEvent → List NameFault
  | [] => []
  | e :: es => (e.fault? bound).toList ++ faults (boundAfter bound [e]) es

def boundName? : NameEvent → Option String
  | .use _ => none
  | .bind name => some name

/-! ## Sequences of events -/

variable (bound : String → Bool)

/-- Without events the same names are bound as before. -/
@[simp] theorem boundAfter_nil : boundAfter bound [] = bound := by
  funext name
  simp [boundAfter]

/-- The names that are bound after two runs of events are those bound after the second from those
bound after the first. -/
theorem boundAfter_append (es es' : List NameEvent) :
    boundAfter bound (es ++ es') = boundAfter (boundAfter bound es) es' := by
  funext name
  simp [boundAfter, Bool.or_assoc]

/-- The faults of two runs of events are those of the first, and of the second after it. -/
theorem faults_append (es es' : List NameEvent) :
    faults bound (es ++ es') = faults bound es ++ faults (boundAfter bound es) es' := by
  induction es generalizing bound with
  | nil => rw [boundAfter_nil]; rfl
  | cons e es ih =>
    rw [List.cons_append, faults, faults, ih, List.append_assoc, ← boundAfter_append]
    rfl

variable {bound}

/-- Where there are no faults, every name that is used has been bound before. -/
theorem bound_of_faults_eq_nil {before after : List NameEvent} {name : String}
    (h : faults bound (before ++ .use name :: after) = []) :
    bound name = true ∨ .bind name ∈ before := by
  rw [faults_append, faults, List.append_eq_nil_iff, List.append_eq_nil_iff,
    Option.toList_eq_nil_iff, fault?] at h
  have huse : boundAfter bound before name = true := by simpa using h.2.1
  simpa [boundAfter] using huse

/-- Where there are no faults, no name is bound twice, or bound that was bound before. -/
theorem nodup_of_faults_eq_nil {es : List NameEvent} (h : faults bound es = []) :
    (es.filterMap boundName?).Nodup ∧ ∀ name ∈ es.filterMap boundName?, bound name = false := by
  induction es generalizing bound with
  | nil => simp
  | cons e es ih =>
    rw [faults, List.append_eq_nil_iff, Option.toList_eq_nil_iff] at h
    obtain ⟨hnodup, hnew⟩ := ih h.2
    cases e with
    | use name =>
      refine ⟨hnodup, fun other hother => ?_⟩
      simpa [boundAfter] using hnew other hother
    | bind name =>
      have hname : bound name = false := by simpa [fault?] using h.1
      have hother : ∀ other ∈ es.filterMap boundName?, bound other = false ∧ other ≠ name := by
        intro other hother
        simpa [boundAfter] using hnew other hother
      have hnames : (NameEvent.bind name :: es).filterMap boundName? =
          name :: es.filterMap boundName? := rfl
      rw [hnames, List.nodup_cons, List.forall_mem_cons]
      exact ⟨⟨fun hmem => (hother name hmem).2 rfl, hnodup⟩, hname,
        fun other hmem => (hother other hmem).1⟩

end NameEvent

open NameEvent (boundAfter faults faults_append boundAfter_append)

/-! ## Events of trees -/

/-- The events of a tree are those of its children and then the one at its root. -/
theorem Node.events_eq (node : Node) :
    node.events = node.form.children.flatMap Node.events ++ node.form.event?.toList :=
  filterMap_visited _ node

/-- The names that a tree binds are those of its events, in order. -/
theorem Node.boundNames_eq_events (node : Node) :
    node.boundNames = node.events.filterMap NameEvent.boundName? := by
  have hform (form : Form) : form.boundName? = form.event?.bind NameEvent.boundName? := by
    cases form <;> rfl
  simp only [boundNames, events, List.filterMap_filterMap, hform]

/-- A tree binds a name exactly if one of its events does. -/
theorem Node.mem_boundNames_iff {node : Node} {name : String} :
    name ∈ node.boundNames ↔ .bind name ∈ node.events := by
  have hbind (e : NameEvent) : e.boundName? = some name ↔ e = .bind name := by
    cases e <;> simp [NameEvent.boundName?]
  rw [boundNames_eq_events, List.mem_filterMap]
  simp only [hbind, exists_eq_right]

/-- The event of a form itself does not depend on its children. -/
theorem Form.event?_withChildren (form : Form) (nodes : List Node) :
    (form.withChildren nodes).event? = form.event? := by
  unfold withChildren
  split <;> rfl

/-! ## Following a check -/

def Scope.binds (s : Scope) (name : String) : Bool := (s.lookup? name).isSome

/-- After a form the scope binds what it did and what the event of the form binds. -/
theorem Scope.binds_after (s : Scope) (form : Form) :
    (s.after form).binds = boundAfter s.binds form.event?.toList := by
  cases form with
  | binding x declared value =>
    funext name
    by_cases hname : name = x <;>
      simp [binds, Scope.after, Scope.lookup?_declare, boundAfter, Form.event?, hname]
  | _ => exact (NameEvent.boundAfter_nil s.binds).symm

/-- After several forms the scope binds what it did and what their events bind. -/
theorem Scope.binds_afterAll (s : Scope) (nodes : List Node) :
    (s.afterAll nodes).binds = boundAfter s.binds (nodes.filterMap (·.form.event?)) := by
  induction nodes generalizing s with
  | nil => exact (NameEvent.boundAfter_nil s.binds).symm
  | cons node rest ih =>
    have hevents : (node :: rest).filterMap (·.form.event?) =
        node.form.event?.toList ++ rest.filterMap (·.form.event?) := by
      cases h : node.form.event? <;> simp [h]
    rw [hevents, boundAfter_append, ← binds_after]
    exact ih _

/-- No reports are about no names. -/
@[simp] theorem nameFaults_nil : nameFaults [] = [] := rfl

/-- The faults of names in two parts of reports are those of each. -/
@[simp] theorem nameFaults_append (ds es : List Diagnostic) :
    nameFaults (ds ++ es) = nameFaults ds ++ nameFaults es :=
  List.filterMap_append

/-- Reports that are about no names have no faults of names in them. -/
theorem nameFaults_of_nameless {ds : List Diagnostic} (h : Nameless ds) : nameFaults ds = [] := by
  refine List.filterMap_eq_nil_iff.2 fun d hd => ?_
  have hd := h d hd
  cases d <;> first | rfl | simp [Diagnostic.concernsName, Diagnostic.fault] at hd

namespace Checker

variable {c : Checker}

/-- The events of a tree stay as they are in a check. -/
theorem events_check (node : Node) (s : Scope) :
    ((c.check node).run s).result.item.events = node.events :=
  filterMap_check c Form.event?_withChildren node s

/-- Strict or not, a check binds the names that the events of the tree bind. -/
theorem binds_check (node : Node) (s : Scope) :
    ((c.check node).run s).scope.binds = boundAfter s.binds node.events := by
  rw [(c.audits node s).scope_eq, Scope.binds_afterAll, ← Node.events, events_check]

/-- In a strict check a use of a name is reported exactly if the event is at fault. -/
theorem nameFaults_unboundReports (hstrict : c.strict = true) (s : Scope) (name : String) :
    nameFaults (c.unboundReports s name) = faults s.binds [.use name] := by
  unfold unboundReports
  cases h : s.lookup? name <;>
    simp [nameFaults, Diagnostic.nameFault?, faults, NameEvent.fault?, Scope.binds, h, hstrict]

/-- In a strict check a binding is reported exactly if the event is at fault. -/
theorem nameFaults_rebindReports (hstrict : c.strict = true) (s : Scope) (name : String)
    (ty : Ty) : nameFaults (c.rebindReports s name ty) = faults s.binds [.bind name] := by
  unfold rebindReports
  cases h : s.lookup? name <;>
    simp [nameFaults, Diagnostic.nameFault?, faults, NameEvent.fault?, Scope.binds, h, hstrict]

/-- That items are not alike is reported in between, but is not about names. -/
theorem nameFaults_checkAlike (expected : Option Ty) (items : List Node) (s : Scope) :
    nameFaults ((c.checkAlike expected items).run s).reports =
      nameFaults ((c.checkEach items).run s).reports := by
  induction items generalizing expected s with
  | nil => rfl
  | cons node rest ih =>
    rw [run_checkEach_cons]
    simp [checkAlike, nameFaults_of_nameless (nameless_expect? _ _), ih]

/-- What is said about names in a check of a form is said in the check of its children, and
then of its own event. -/
theorem nameFaults_infer (hstrict : c.strict = true) (form : Form) (s : Scope) :
    let children := (c.checkEach form.children).run s
    nameFaults ((c.infer form).run s).reports =
      nameFaults children.reports ++ faults children.scope.binds form.event?.toList := by
  intro children
  cases form with
  | name x =>
    simp [children, infer, run_lookupName, nameFaults_unboundReports hstrict, Form.event?,
      Form.children]
  | array items =>
    simp [children, infer, nameFaults_checkAlike, Form.event?, Form.children, faults]
  | table pairs =>
    rw [run_infer_table]
    simp only [children, Form.children, run_checkEach_append, nameFaults_append,
      nameFaults_checkAlike]
    exact (List.append_nil _).symm
  | binding x declared value =>
    have hbinding (declared value : Option Ty) :
        nameFaults (Verdict.ofBinding declared value).reports = [] :=
      nameFaults_of_nameless (nameless_ofBinding _ _)
    cases value <;>
      simp [children, infer, run_bindName, run_checkEach_cons, Form.children, Form.event?,
        nameFaults_rebindReports hstrict, hbinding]
  | _ =>
    simp [children, infer, run_checkEach_cons, run_checkArguments, Form.children, Form.event?,
      faults, nameFaults_of_nameless, nameless_ofBinary, nameless_ofUnary, nameless_ofCall,
      nameless_ofIndex]

/-- From one scope to another, the names that events bind have been bound, and of the names
in reports what is wrong with the events has been said. -/
structure Reported (s : Scope) (es : List NameEvent) (s' : Scope) (ds : List Diagnostic) :
    Prop where
  binds_eq : s'.binds = boundAfter s.binds es
  nameFaults_eq : nameFaults ds = faults s.binds es

namespace Reported

variable {s s' s'' : Scope} {es es' : List NameEvent} {ds ds' : List Diagnostic}

/-- Without events there is nothing to report. -/
theorem nil : Reported s [] s [] := ⟨(NameEvent.boundAfter_nil s.binds).symm, rfl⟩

/-- What is reported of events one after the other is reported of all of them. -/
theorem append (h : Reported s es s' ds) (h' : Reported s' es' s'' ds') :
    Reported s (es ++ es') s'' (ds ++ ds') where
  binds_eq := by rw [boundAfter_append, ← h.binds_eq, h'.binds_eq]
  nameFaults_eq := by
    rw [nameFaults_append, faults_append, h.nameFaults_eq, h'.nameFaults_eq, h.binds_eq]

end Reported

/-- The name events of a list of trees are reported if those of each tree are. -/
theorem reported_checkEach {items : List Node}
    (hcheck : ∀ node ∈ items, ∀ s,
      Reported s node.events ((c.check node).run s).scope ((c.check node).run s).reports)
    (s : Scope) :
    Reported s (items.flatMap Node.events) ((c.checkEach items).run s).scope
      ((c.checkEach items).run s).reports := by
  induction items generalizing s with
  | nil => exact .nil
  | cons node rest ih =>
    rw [run_checkEach_cons, List.flatMap_cons]
    exact (hcheck node List.mem_cons_self s).append
      (ih (fun other hother => hcheck other (List.mem_cons_of_mem _ hother)) _)

/-- A strict check reports what is wrong with the events of a tree, and binds the names that
they bind. -/
theorem reported_check (hstrict : c.strict = true) (node : Node) (s : Scope) :
    Reported s node.events ((c.check node).run s).scope ((c.check node).run s).reports := by
  induction node using Node.induction generalizing s with
  | step form location ty ih =>
    have hchildren := reported_checkEach ih s
    refine ⟨binds_check _ s, ?_⟩
    rw [run_check, Node.events_eq, nameFaults_infer hstrict, faults_append,
      ← hchildren.nameFaults_eq, ← hchildren.binds_eq]

end Checker

namespace Context

/-- A strict check adds, among other diagnostics, one for every event that uses a name that is
neither declared in the context nor bound by an event before, and one for every event that
binds a name that is; they come in the order of events. So if it adds none at all, every
name is declared or bound before it is used, and no name is bound twice, or bound that is
declared in the context. -/
theorem check_reports_names (ctx : Context) (ops : Operators) (tree : Node)
    (hstrict : ctx.strict = true) :
    ∃ added, (ctx.check ops tree).2.diagnostics = ctx.diagnostics ++ added ∧
      nameFaults added = faults ctx.isDeclared tree.events ∧
      (added = [] →
        (∀ before name after, tree.events = before ++ .use name :: after →
          ctx.isDeclared name = true ∨ .bind name ∈ before) ∧
        tree.boundNames.Nodup ∧ ∀ name ∈ tree.boundNames, ctx.isDeclared name = false) := by
  have hreported := Checker.reported_check (c := ctx.checker ops) hstrict tree ctx.scope
  have hfaults : nameFaults (((ctx.checker ops).check tree).run ctx.scope).reports =
      faults ctx.isDeclared tree.events := hreported.nameFaults_eq
  refine ⟨_, diagnostics_check ctx ops tree, hfaults, fun hpassed => ?_⟩
  rw [hpassed] at hfaults
  refine ⟨fun before name after hevents => ?_, ?_⟩
  · rw [hevents] at hfaults
    exact NameEvent.bound_of_faults_eq_nil hfaults.symm
  · rw [Node.boundNames_eq_events]
    exact NameEvent.nodup_of_faults_eq_nil hfaults.symm

/-- All keys of a table constructor come before its values. So the second key uses `y` before
the first value binds it, and the second value binds `x` again, which the first key has bound
after it was used for the value there. In the second tree nothing is wrong. -/
theorem check_reports_names_table :
    let ctx : Context := ⟨true, ⟨[("f", .number)]⟩, [.notCallable "Nil"], 1⟩
    let use (x : String) := Node.ofForm (.name x)
    let bind (x : String) (value : Node) := Node.ofForm (.binding x none (some value))
    let tree := Node.ofForm (.block
      [.ofForm (.table [(bind "x" (use "x"), bind "y" (use "f")), (use "y", bind "x" (use "y"))]),
        bind "f" (use "y")])
    let sound := Node.ofForm (.block [bind "x" (use "f"), bind "y" (use "x"), use "y"])
    (ctx.check .builtin tree).2.diagnostics = [.notCallable "Nil", .unresolved "x",
      .unresolved "y", .redeclared "x" "Any" "Number", .redeclared "f" "Number" "Number"] ∧
    faults ctx.isDeclared tree.events =
      [.unresolved "x", .unresolved "y", .redeclared "x", .redeclared "f"] ∧
    (ctx.check .builtin sound).2.diagnostics = [.notCallable "Nil"] ∧
    sound.boundNames.Nodup ∧ ∀ name ∈ sound.boundNames, ctx.isDeclared name = false := by
  intro ctx use bind tree sound
  obtain ⟨added, hadded, hfaults, -⟩ := check_reports_names ctx .builtin tree rfl
  obtain ⟨added', hadded', -, hsound⟩ := check_reports_names ctx .builtin sound rfl
  have hreports : (ctx.check .builtin tree).2.diagnostics = [.notCallable "Nil", .unresolved "x",
    .unresolved "y", .redeclared "x" "Any" "Number", .redeclared "f" "Number" "Number"] := by
    decide +kernel
  have hpassed : (ctx.check .builtin sound).2.diagnostics = [.notCallable "Nil"] := by
    decide +kernel
  obtain rfl := List.append_cancel_left (hadded.symm.trans hreports)
  obtain rfl := List.append_cancel_left (hadded'.symm.trans hpassed)
  exact ⟨hreports, hfaults.symm, hpassed, (hsound rfl).2⟩

end Context

end GradualScript
