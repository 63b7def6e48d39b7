import GradualScript.Proofs.Ty.Names
import GradualScript.Typing.Context
import Mathlib.Logic.Relation

/-!
# What a name leads to

The names of a scope make up a graph: a name leads to the names in the type it is bound to
(`Scope.Leads`). From a type, all names can be reached that its own names lead to
(`Scope.Reaches`), and a name may lead back to itself (`Scope.Cyclic`). Types are resolved
along this graph, and what is not reached has no influence (`Scope.resolve_congr`).

The proofs are by induction on the expansion of a name, which goes on in the scope without
that name. A path in that scope is a path that avoids the name, and wherever a name leads,
it also leads by a path that does not come back to it (`Scope.exists_leads_avoiding`).

Two facts say what is left of a name. A name in the expansion of another one is reached
from there, and is not bound or leads back to itself (`Scope.of_mem_names_expand`).
Conversely, a name that leads back to itself occurs in its own expansion
(`Scope.Cyclic.mem_names_expand`).

Resolution can also be told by rules that follow a type and keep a list of the names that
are being expanded (`Scope.Resolves`). They give every type exactly one result.
-/

set_option autoImplicit false

namespace GradualScript

namespace Scope

open Relation (TransGen ReflTransGen)

/-! ## The graph of names -/

def Leads (s : Scope) (a b : String) : Prop := ∃ ty, s.lookup? a = some ty ∧ b ∈ ty.names

/-- Whether a name occurs in a type or can be reached from a name in it. -/
def Reaches (s : Scope) (ty : Ty) (name : String) : Prop :=
  ∃ start ∈ ty.names, ReflTransGen s.Leads start name

/-- Whether a name leads back to itself. -/
def Cyclic (s : Scope) (name : String) : Prop := TransGen s.Leads name name

variable {s : Scope} {a b name : String} {ty : Ty}

/-- A name that is bound leads to the names in its type. -/
theorem leads_of_bound (h : s.lookup? a = some ty) : s.Leads a b ↔ b ∈ ty.names := by
  constructor
  · rintro ⟨found, hfound, hb⟩
    rw [h] at hfound
    rwa [Option.some.inj hfound]
  · intro hb
    exact ⟨ty, h, hb⟩

/-- A name that is not bound leads nowhere. -/
theorem not_leads_of_unbound (h : s.lookup? a = none) : ¬ s.Leads a b := by
  rintro ⟨ty, hty, -⟩
  rw [h] at hty
  contradiction

/-- Without a name, all other names lead to what they led to. -/
theorem leads_erase_iff : (s.erase name).Leads a b ↔ a ≠ name ∧ s.Leads a b := by
  unfold Leads
  rw [lookup?_erase]
  by_cases h : a = name <;> simp [h]

/-- Without one of its bindings a scope leads nowhere that it did not lead before. -/
theorem leads_of_erase : (s.erase name).Leads ≤ s.Leads := by
  intro c d hcd
  exact (leads_erase_iff.1 hcd).2

/-- What can be reached without a binding can be reached with it. -/
theorem reflTransGen_of_erase (h : ReflTransGen (s.erase name).Leads a b) :
    ReflTransGen s.Leads a b :=
  ReflTransGen.mono leads_of_erase a b h

/-- A name that leads back to itself without a binding does so with it. -/
theorem Cyclic.of_erase (h : (s.erase name).Cyclic a) : s.Cyclic a :=
  TransGen.mono leads_of_erase a a h

/-- Wherever a name leads, it leads by a path that does not pass through it again. -/
theorem exists_leads_avoiding (h : TransGen s.Leads a b) :
    ∃ m, s.Leads a m ∧ ReflTransGen (s.erase a).Leads m b := by
  induction h with
  | single hab => exact ⟨_, hab, .refl⟩
  | @tail c b _ hcb ih =>
    by_cases hc : c = a
    · exact ⟨b, hc ▸ hcb, .refl⟩
    · obtain ⟨m, ham, hmc⟩ := ih
      exact ⟨m, ham, hmc.tail (leads_erase_iff.2 ⟨hc, hcb⟩)⟩

/-- What a name that does not lead back to itself leads to, leads past that name. -/
theorem transGen_erase (ha : ¬ s.Cyclic a) {c d : String} (hac : TransGen s.Leads a c)
    (hcd : TransGen s.Leads c d) : TransGen (s.erase a).Leads c d := by
  induction hcd with
  | single hcd =>
    exact .single (leads_erase_iff.2 ⟨fun h => ha (by rwa [h] at hac), hcd⟩)
  | @tail d e hcd hde ih =>
    exact ih.tail (leads_erase_iff.2 ⟨fun h => ha (by
      have hback := hac.trans hcd
      rwa [h] at hback), hde⟩)

/-! ## Expansions -/

/-- The expansion of a bound name holds the names that are left of those it leads to, when these
have been expanded in the scope without it. -/
theorem mem_names_expand_of_bound (h : s.lookup? a = some ty) :
    name ∈ (s.expand a).names ↔ ∃ m, s.Leads a m ∧ name ∈ ((s.erase a).expand m).names := by
  rw [expand_of_bound h, Ty.mem_names_substitute]
  simp only [leads_of_bound h]

/-- A name that is not bound is left in the expansion of every name that leads to it. -/
theorem mem_names_expand_of_unbound (hb : s.lookup? b = none) (h : ReflTransGen s.Leads a b) :
    b ∈ (s.expand a).names := by
  induction s, a using Scope.expand.induct with
  | case1 s a hnone =>
    rcases h.cases_head with rfl | ⟨m, ham, -⟩
    · rw [expand_of_unbound hnone]
      exact List.mem_singleton_self a
    · exact absurd ham (not_leads_of_unbound hnone)
  | case2 s a ty hsome ih =>
    rcases Relation.reflTransGen_iff_eq_or_transGen.1 h with rfl | hpath
    · rw [hb] at hsome
      contradiction
    · obtain ⟨m, ham, hmb⟩ := exists_leads_avoiding hpath
      refine (mem_names_expand_of_bound hsome).2 ⟨m, ham, ih m ?_ hmb⟩
      rw [lookup?_erase, hb, ite_self]

/-- A name that leads back to itself is bound. -/
theorem Cyclic.exists_bound (h : s.Cyclic name) : ∃ ty, s.lookup? name = some ty := by
  obtain ⟨m, ⟨ty, hty, -⟩, -⟩ := exists_leads_avoiding h
  exact ⟨ty, hty⟩

/-- A name that leads back to itself is left in its own expansion. -/
theorem Cyclic.mem_names_expand (h : s.Cyclic name) : name ∈ (s.expand name).names := by
  obtain ⟨ty, hty⟩ := h.exists_bound
  obtain ⟨m, hm, hback⟩ := exists_leads_avoiding h
  have hunbound : (s.erase name).lookup? name = none := by rw [lookup?_erase, if_pos rfl]
  exact (mem_names_expand_of_bound hty).2 ⟨m, hm, mem_names_expand_of_unbound hunbound hback⟩

/-- A name that is left in an expansion is reached, and is not bound or leads back to
itself. -/
theorem of_mem_names_expand (h : name ∈ (s.expand a).names) :
    ReflTransGen s.Leads a name ∧ (s.lookup? name = none ∨ s.Cyclic name) := by
  induction s, a using Scope.expand.induct with
  | case1 s a hnone =>
    rw [expand_of_unbound hnone] at h
    obtain rfl := List.mem_singleton.1 h
    exact ⟨.refl, .inl hnone⟩
  | case2 s a ty hsome ih =>
    obtain ⟨m, ham, hm⟩ := (mem_names_expand_of_bound hsome).1 h
    obtain ⟨herased, hleft⟩ := ih m hm
    have hpath := reflTransGen_of_erase herased
    refine ⟨.head ham hpath, ?_⟩
    rcases hleft with hunbound | hcyclic
    · -- The name is not bound without `a`: it was not bound before, or it is `a`.
      rw [lookup?_erase] at hunbound
      by_cases hname : name = a
      · subst hname
        exact .inr (TransGen.head' ham hpath)
      · rw [if_neg hname] at hunbound
        exact .inl hunbound
    · exact .inr hcyclic.of_erase

/-- A name that is left in a resolved type could be reached from it, and is not bound or leads
back to itself. -/
theorem of_mem_names_resolve (h : name ∈ (s.resolve ty).names) :
    s.Reaches ty name ∧ (s.lookup? name = none ∨ s.Cyclic name) := by
  obtain ⟨start, hstart, hname⟩ := Ty.mem_names_substitute.1 h
  obtain ⟨hpath, hleft⟩ := of_mem_names_expand hname
  exact ⟨⟨start, hstart, hpath⟩, hleft⟩

/-- A type in which no name is bound resolves to itself. -/
theorem resolve_of_unbound (h : ∀ name ∈ ty.names, s.lookup? name = none) :
    s.resolve ty = ty :=
  Ty.substitute_eq_self_iff.2 fun name hname => expand_of_unbound (h name hname)

/-! ## What resolution depends on -/

/-- The expansion of a name depends only on what is bound to the names that can be reached from
it. -/
theorem expand_congr {t : Scope}
    (h : ∀ name, ReflTransGen s.Leads a name → s.lookup? name = t.lookup? name) :
    s.expand a = t.expand a := by
  induction s, a using Scope.expand.induct generalizing t with
  | case1 s a hnone =>
    rw [expand_of_unbound hnone, expand_of_unbound (h a .refl ▸ hnone)]
  | case2 s a ty hsome ih =>
    rw [expand_of_bound hsome, expand_of_bound (h a .refl ▸ hsome)]
    apply Ty.substitute_congr
    intro m hm
    apply ih
    intro name hname
    rw [lookup?_erase, lookup?_erase]
    rw [h name (.head ⟨ty, hsome, hm⟩ (reflTransGen_of_erase hname))]

/-- Scopes that bind the names that a type reaches alike resolve the type alike. -/
theorem resolve_congr {t : Scope}
    (h : ∀ name, s.Reaches ty name → s.lookup? name = t.lookup? name) :
    s.resolve ty = t.resolve ty := by
  apply Ty.substitute_congr
  intro start hstart
  apply expand_congr
  intro name hname
  exact h name ⟨start, hstart, hname⟩

/-- What a name is bound to matters only to types that reach the name. -/
theorem resolve_declare {bound : Ty} (h : ¬ s.Reaches ty name) :
    (s.declare name bound).resolve ty = s.resolve ty := by
  symm
  apply resolve_congr
  intro m hm
  rw [lookup?_declare, if_neg]
  rintro rfl
  exact h hm

/-! ## Resolution by rules -/

mutual

/-- Resolution of a type below the names of a path, which are being expanded. A name on the
path, or one that is not bound, stays as it is. Any other name is put on the path while the
type it is bound to is resolved. -/
inductive Resolves (s : Scope) : List String → Ty → Ty → Prop where
  | primitive {path : List String} (kind : Primitive) :
    Resolves s path (.primitive kind) (.primitive kind)
  | array {path : List String} {e e' : Ty} (h : Resolves s path e e') :
    Resolves s path (.array e) (.array e')
  | table {path : List String} {k k' v v' : Ty} (hkey : Resolves s path k k')
    (hvalue : Resolves s path v v') : Resolves s path (.table k v) (.table k' v')
  | function {path : List String} {ps ps' : List Ty} {r r' : Ty}
    (hparams : ResolvesEach s path ps ps') (hresult : Resolves s path r r') :
    Resolves s path (.function ps r) (.function ps' r')
  | cut {path : List String} {name : String} (h : name ∈ path) :
    Resolves s path (.custom name) (.custom name)
  | unbound {path : List String} {name : String} (h : s.lookup? name = none) :
    Resolves s path (.custom name) (.custom name)
  | bound {path : List String} {name : String} {ty ty' : Ty} (hpath : name ∉ path)
    (hbound : s.lookup? name = some ty) (h : Resolves s (name :: path) ty ty') :
    Resolves s path (.custom name) ty'

/-- The same for lists of types, item by item. -/
inductive ResolvesEach (s : Scope) : List String → List Ty → List Ty → Prop where
  | nil {path : List String} : ResolvesEach s path [] []
  | cons {path : List String} {a a' : Ty} {as as' : List Ty} (hhead : Resolves s path a a')
    (htail : ResolvesEach s path as as') : ResolvesEach s path (a :: as) (a' :: as')

end

/-- The scope without the names of a path. -/
def without (s : Scope) (path : List String) : Scope := path.foldr (fun name t => t.erase name) s

/-- The scope without the names of a path binds what it did, except for these. -/
theorem lookup?_without (path : List String) :
    (s.without path).lookup? name = if name ∈ path then none else s.lookup? name := by
  induction path with
  | nil => rfl
  | cons first rest ih =>
    have hcons : s.without (first :: rest) = (s.without rest).erase first := rfl
    rw [hcons, lookup?_erase, ih]
    by_cases h : name = first <;> simp [h]

mutual

/-- The rules give a type only what it resolves to without the names of the path. -/
theorem Resolves.eq : ∀ {path : List String} {ty ty' : Ty}, s.Resolves path ty ty' →
    ty' = (s.without path).resolve ty
  | _, _, _, .primitive _ => rfl
  | _, _, _, .array h => congrArg Ty.array h.eq
  | _, _, _, .table hkey hvalue => by rw [hkey.eq, hvalue.eq]; rfl
  | _, _, _, .function hparams hresult => by rw [hparams.eq, hresult.eq]; rfl
  | _, _, _, .cut h => (expand_of_unbound (by rw [lookup?_without, if_pos h])).symm
  | _, _, _, .unbound h => (expand_of_unbound (by rw [lookup?_without, h, ite_self])).symm
  | path, .custom name, _, .bound hpath hbound h => by
    have hfound : (s.without path).lookup? name = s.lookup? name := by
      rw [lookup?_without, if_neg hpath]
    rw [h.eq]
    exact (expand_of_bound (hfound.trans hbound)).symm

/-- The rules determine what a list of types is resolved to: it is expanded in the scope without
the names of the path. -/
theorem ResolvesEach.eq : ∀ {path : List String} {tys tys' : List Ty},
    s.ResolvesEach path tys tys' → tys' = Ty.substituteEach (s.without path).expand tys
  | _, _, _, .nil => rfl
  | _, _, _, .cons hhead htail => by rw [hhead.eq, htail.eq]; rfl

end

mutual

/-- The rules resolve every type whose names they resolve. -/
theorem resolves_substitute {path : List String} {f : String → Ty} : ∀ ty : Ty,
    (∀ name ∈ ty.names, s.Resolves path (.custom name) (f name)) →
      s.Resolves path ty (ty.substitute f)
  | .primitive kind, _ => .primitive kind
  | .array e, h => .array (resolves_substitute e h)
  | .table k v, h => by
    simp only [Ty.names, List.forall_mem_append] at h
    exact .table (resolves_substitute k h.1) (resolves_substitute v h.2)
  | .function ps r, h => by
    simp only [Ty.names, List.forall_mem_append] at h
    exact .function (resolvesEach_substituteEach ps h.1) (resolves_substitute r h.2)
  | .custom name, h => h name (List.mem_singleton_self name)

/-- A list of types is resolved by the rules if each name in it is. -/
theorem resolvesEach_substituteEach {path : List String} {f : String → Ty} : ∀ tys : List Ty,
    (∀ name ∈ Ty.namesEach tys, s.Resolves path (.custom name) (f name)) →
      s.ResolvesEach path tys (Ty.substituteEach f tys)
  | [], _ => .nil
  | ty :: tys, h => by
    simp only [Ty.namesEach, List.forall_mem_append] at h
    exact .cons (resolves_substitute ty h.1) (resolvesEach_substituteEach tys h.2)

end

/-- The rules come to an end at every name. Each name that goes on the path leaves one
binding less to expand. -/
theorem resolves_expand (path : List String) (name : String) :
    s.Resolves path (.custom name) ((s.without path).expand name) := by
  generalize ht : s.without path = t
  induction t, name using Scope.expand.induct generalizing path with
  | case1 t name hnone =>
    rw [expand_of_unbound hnone]
    rw [← ht, lookup?_without] at hnone
    by_cases hpath : name ∈ path
    · exact .cut hpath
    · rw [if_neg hpath] at hnone
      exact .unbound hnone
  | case2 t name ty hsome ih =>
    rw [expand_of_bound hsome]
    rw [← ht, lookup?_without] at hsome
    have hpath : name ∉ path := by
      intro hmem
      rw [if_pos hmem] at hsome
      contradiction
    rw [if_neg hpath] at hsome
    refine .bound hpath hsome (resolves_substitute ty ?_)
    intro m _
    exact ih m (name :: path) (congrArg (fun u => u.erase name) ht)

/-- The rules give every type one result, the one that resolution gives. -/
theorem resolves_iff {ty' : Ty} : s.Resolves [] ty ty' ↔ ty' = s.resolve ty := by
  constructor
  · intro h
    exact h.eq
  · rintro rfl
    exact resolves_substitute ty fun name _ => resolves_expand [] name

end Scope

namespace Context

/-- In any context resolution comes to an end at every type and gives what the rules give.
It acts on the components of a type one by one. Every name that is left is not bound or
leads back to itself. If no name that can be reached from the type leads back to itself,
then no bound name is left, and resolving once more changes nothing. -/
theorem resolve_complete (ctx : Context) (ty : Ty) :
    (∀ ty', ctx.scope.Resolves [] ty ty' ↔ ty' = ctx.resolve ty) ∧
      (∀ e, ctx.resolve (.array e) = .array (ctx.resolve e)) ∧
      (∀ k v, ctx.resolve (.table k v) = .table (ctx.resolve k) (ctx.resolve v)) ∧
      (∀ ps r, ctx.resolve (.function ps r) = .function (ps.map ctx.resolve) (ctx.resolve r)) ∧
      (∀ name ∈ (ctx.resolve ty).names, ctx.lookup? name = none ∨ ctx.scope.Cyclic name) ∧
      ((∀ name, ctx.scope.Reaches ty name → ¬ ctx.scope.Cyclic name) →
        (∀ name ∈ (ctx.resolve ty).names, ctx.lookup? name = none) ∧
          ctx.resolve (ctx.resolve ty) = ctx.resolve ty) := by
  refine ⟨fun _ => Scope.resolves_iff, fun _ => rfl, fun _ _ => rfl, ?_, ?_, ?_⟩
  · intro ps r
    show Ty.function (Ty.substituteEach _ ps) _ = _
    rw [Ty.substituteEach_eq_map]
    rfl
  · intro name hname
    exact (Scope.of_mem_names_resolve hname).2
  · intro hacyclic
    have hunbound : ∀ name ∈ (ctx.resolve ty).names, ctx.lookup? name = none := by
      intro name hname
      obtain ⟨hreached, hleft⟩ := Scope.of_mem_names_resolve hname
      exact hleft.resolve_right (hacyclic name hreached)
    exact ⟨hunbound, Scope.resolve_of_unbound hunbound⟩

/-- One alias of another one, used side by side with it, is expanded in full. An alias of
itself elsewhere in the context does not matter. -/
theorem resolve_complete_board :
    let ctx : Context := ⟨true, ⟨[("Scores", .table .string .number),
      ("Board", .array (.custom "Scores")), ("Loop", .array (.custom "Loop"))]⟩, [], 0⟩
    let ty := Ty.table (.custom "Scores") (.custom "Board")
    (∀ name, ctx.scope.Reaches ty name → ¬ ctx.scope.Cyclic name) ∧
      ctx.resolve ty = .table (.table .string .number) (.array (.table .string .number)) ∧
      (∀ name ∈ (ctx.resolve ty).names, ctx.lookup? name = none) ∧
      ctx.resolve (ctx.resolve ty) = ctx.resolve ty := by
  intro ctx ty
  have hscores : ctx.scope.lookup? "Scores" = some (.table .string .number) := rfl
  have hboard : ctx.scope.lookup? "Board" = some (.array (.custom "Scores")) := rfl
  have hlast : ∀ m, ¬ ctx.scope.Leads "Scores" m := by
    intro m hm
    simpa [Ty.names] using (Scope.leads_of_bound hscores).1 hm
  have hnext : ∀ m, ctx.scope.Leads "Board" m → m = "Scores" := by
    intro m hm
    simpa [Ty.names] using (Scope.leads_of_bound hboard).1 hm
  have hacyclic : ∀ name, ctx.scope.Reaches ty name → ¬ ctx.scope.Cyclic name := by
    rintro name ⟨start, hstart, hpath⟩
    have hname : name = "Scores" ∨ name = "Board" := by
      induction hpath with
      | refl => simpa [ty, Ty.names] using hstart
      | tail _ hstep ih =>
        rcases ih with rfl | rfl
        · exact absurd hstep (hlast _)
        · exact .inl (hnext _ hstep)
    intro hcyclic
    obtain ⟨m, hm, hback⟩ := Scope.exists_leads_avoiding hcyclic
    rcases hname with rfl | rfl
    · exact hlast m hm
    · obtain rfl := hnext m hm
      rcases hback.cases_head with hsame | ⟨m', hm', -⟩
      · exact absurd hsame (by decide)
      · exact hlast m' (Scope.leads_of_erase _ _ hm')
  have herased : (ctx.scope.erase "Board").lookup? "Scores" = some (.table .string .number) := rfl
  have hscoresTy : ctx.scope.expand "Scores" = .table .string .number :=
    Scope.expand_of_bound hscores
  have hboardTy : ctx.scope.expand "Board" = .array (.table .string .number) :=
    (Scope.expand_of_bound hboard).trans (congrArg Ty.array (Scope.expand_of_bound herased))
  have hresolved : ctx.resolve ty =
      .table (.table .string .number) (.array (.table .string .number)) := by
    show Ty.table (ctx.scope.expand "Scores") (ctx.scope.expand "Board") = _
    rw [hscoresTy, hboardTy]
  exact ⟨hacyclic, hresolved, (resolve_complete ctx ty).2.2.2.2.2 hacyclic⟩

end Context

end GradualScript
