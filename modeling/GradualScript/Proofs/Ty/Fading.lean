import GradualScript.Typing.Scope

/-!
# Types that fade

A type fades when some of its parts become unknown: `Ty.FadesTo P a b` says that `b` is
`a` with `Any` in the place of some parts, all of which satisfy `P`. A scope fades when the
types its names are bound to do (`Scope.FadesTo`), and then types resolved in it do, too
(`Scope.FadesTo.resolve`), provided that `P` is kept by what is done to types
(`Ty.Stable`).

If only primitive types become unknown, types that fit each other still do
(`Ty.FadesTo.accepts`).
-/

set_option autoImplicit false

namespace GradualScript

namespace Ty

mutual

/-- Whether a type becomes another one when parts of it that satisfy `P` become unknown. -/
inductive FadesTo (P : Ty → Prop) : Ty → Ty → Prop where
  | unknown {a : Ty} (h : P a) : FadesTo P a .any
  | primitive (kind : Primitive) : FadesTo P (.primitive kind) (.primitive kind)
  | array {a b : Ty} (h : FadesTo P a b) : FadesTo P (.array a) (.array b)
  | table {k v k' v' : Ty} (hkey : FadesTo P k k') (hvalue : FadesTo P v v') :
    FadesTo P (.table k v) (.table k' v')
  | function {ps qs : List Ty} {r r' : Ty} (hparams : FadesEach P ps qs)
    (hresult : FadesTo P r r') : FadesTo P (.function ps r) (.function qs r')
  | custom (name : String) : FadesTo P (.custom name) (.custom name)

/-- The same for lists of types, item by item. -/
inductive FadesEach (P : Ty → Prop) : List Ty → List Ty → Prop where
  | nil : FadesEach P [] []
  | cons {a b : Ty} {as bs : List Ty} (hhead : FadesTo P a b) (htail : FadesEach P as bs) :
    FadesEach P (a :: as) (b :: bs)

end

/-- Whether a type has no components and names nothing. -/
def isPrimitive : Ty → Bool
  | .primitive _ => true
  | _ => false

/-- What a call of something of a type gives: the result of a function. Nothing is known
of other calls. -/
def returned : Ty → Ty
  | .function _ result => result
  | _ => .any

/-- What an index into something of a type gives: the values of a table or the elements of
an array. Nothing is known of other indexes. -/
def held : Ty → Ty
  | .table _ value => value
  | .array element => element
  | _ => .any

/-- What satisfies `P` goes on to do so when its names are replaced, when it is called and
when it is indexed. -/
structure Stable (P : Ty → Prop) : Prop where
  substitute {a : Ty} (f : String → Ty) : P a → P (a.substitute f)
  returned {a : Ty} : P a → P a.returned
  held {a : Ty} : P a → P a.held

/-- Primitive types are stable: there are no names in them, and nothing is known of what
they give. -/
theorem stable_isPrimitive : Stable fun a => a.isPrimitive = true where
  substitute {a} f h := by
    cases a with
    | primitive kind => rfl
    | _ => simp [isPrimitive] at h
  returned {a} h := by
    cases a with
    | primitive kind => rfl
    | _ => simp [isPrimitive] at h
  held {a} h := by
    cases a with
    | primitive kind => rfl
    | _ => simp [isPrimitive] at h

variable {P : Ty → Prop}

mutual

/-- A type fades to itself, with no part unknown. -/
theorem FadesTo.refl : ∀ a : Ty, FadesTo P a a
  | .primitive kind => .primitive kind
  | .array a => .array (FadesTo.refl a)
  | .table k v => .table (FadesTo.refl k) (FadesTo.refl v)
  | .function ps r => .function (FadesEach.refl ps) (FadesTo.refl r)
  | .custom name => .custom name

/-- A list of types fades to itself. -/
theorem FadesEach.refl : ∀ as : List Ty, FadesEach P as as
  | [] => .nil
  | a :: as => .cons (FadesTo.refl a) (FadesEach.refl as)

end

mutual

/-- A type that has faded does so still when its names are replaced by types that have faded. -/
theorem FadesTo.substitute (hP : Stable P) {f g : String → Ty}
    (hfg : ∀ name, FadesTo P (f name) (g name)) :
    ∀ {a b : Ty}, FadesTo P a b → FadesTo P (a.substitute f) (b.substitute g)
  | _, _, .unknown h => .unknown (hP.substitute f h)
  | _, _, .primitive kind => .primitive kind
  | _, _, .array h => .array (FadesTo.substitute hP hfg h)
  | _, _, .table hkey hvalue =>
    .table (FadesTo.substitute hP hfg hkey) (FadesTo.substitute hP hfg hvalue)
  | _, _, .function hparams hresult =>
    .function (FadesEach.substitute hP hfg hparams) (FadesTo.substitute hP hfg hresult)
  | _, _, .custom name => hfg name

/-- The same holds of the types of a list. -/
theorem FadesEach.substitute (hP : Stable P) {f g : String → Ty}
    (hfg : ∀ name, FadesTo P (f name) (g name)) :
    ∀ {as bs : List Ty}, FadesEach P as bs →
      FadesEach P (substituteEach f as) (substituteEach g bs)
  | _, _, .nil => .nil
  | _, _, .cons hhead htail =>
    .cons (FadesTo.substitute hP hfg hhead) (FadesEach.substitute hP hfg htail)

end

/-- A list of types fades to one of the same length. -/
theorem FadesEach.length_eq {as bs : List Ty} (h : FadesEach P as bs) :
    as.length = bs.length := by
  induction as generalizing bs with
  | nil => cases h; rfl
  | cons a as ih =>
    cases h with
    | cons _ htail => rw [List.length_cons, List.length_cons, ih htail]

/-- If a list of types fades, so does any first part of it. -/
theorem FadesEach.take {as bs : List Ty} (h : FadesEach P as bs) (n : Nat) :
    FadesEach P (as.take n) (bs.take n) := by
  induction n generalizing as bs with
  | zero => exact .nil
  | succ n ih =>
    cases h with
    | nil => exact .nil
    | cons hhead htail => exact .cons hhead (ih htail)

/-- If a list of types fades, so does what is left behind a first part. -/
theorem FadesEach.drop {as bs : List Ty} (h : FadesEach P as bs) (n : Nat) :
    FadesEach P (as.drop n) (bs.drop n) := by
  induction n generalizing as bs with
  | zero => exact h
  | succ n ih =>
    cases h with
    | nil => exact .nil
    | cons _ htail => exact ih htail

/-- A primitive type stays as it is or becomes unknown. -/
theorem FadesTo.of_primitive {kind : Primitive} {b : Ty} (h : FadesTo P (.primitive kind) b) :
    b = .primitive kind ∨ b = .any := by
  cases h with
  | unknown _ => exact .inr rfl
  | primitive _ => exact .inl rfl

/-- What is unknown stays unknown. -/
theorem FadesTo.eq_any {b : Ty} (h : FadesTo P .any b) : b = .any := by
  rcases h.of_primitive with rfl | rfl <;> rfl

/-- What is known to be `Any` is so after fading. -/
theorem FadesTo.isAny {a b : Ty} (h : FadesTo P a b) (ha : a.isAny = true) :
    b.isAny = true := by
  obtain rfl := Ty.isAny_iff.1 ha
  exact Ty.isAny_iff.2 h.eq_any

mutual

/-- Every type is compatible with itself. -/
theorem compatible_self : ∀ a : Ty, a.compatible a = true
  | .primitive kind => by simp [compatible, Primitive.compatible]
  | .array a => by rw [compatible, compatible_self a]
  | .table k v => by rw [compatible, compatible_self k, compatible_self v]; rfl
  | .function ps r => by rw [compatible, compatibleEach_self ps, compatible_self r]; rfl
  | .custom name => by rw [compatible, beq_self_eq_true]

/-- Every list of types is compatible with itself, item by item. -/
theorem compatibleEach_self : ∀ as : List Ty, compatibleEach as as = true
  | [] => rfl
  | a :: as => by rw [compatibleEach, compatible_self a, compatibleEach_self as]; rfl

end

/-- Below the top a type that is not known is compatible with primitive types only. -/
theorem any_compatible (a : Ty) : Ty.any.compatible a = a.isPrimitive := by
  cases a with
  | primitive kind => cases kind <;> rfl
  | _ => rfl

/-- Every type accepts something unknown. -/
@[simp] theorem accepts_any (e : Ty) : e.accepts .any = true := by
  rw [accepts, Bool.or_eq_true, Bool.or_eq_true]
  exact .inl (.inr rfl)

/-- A primitive type goes on to accept what fades. -/
theorem FadesTo.accepts_primitive {kind : Primitive} {a b : Ty}
    (h : (Ty.primitive kind).accepts a = true) (hab : FadesTo P a b) :
    (Ty.primitive kind).accepts b = true := by
  cases hab with
  | unknown _ => exact accepts_any _
  | primitive _ => exact h
  | _ => cases kind <;> exact h

/-- What a call gives fades with the type of what is called. -/
theorem FadesTo.returned (hP : Stable P) {a b : Ty} (h : FadesTo P a b) :
    FadesTo P a.returned b.returned := by
  cases h with
  | unknown h => exact .unknown (hP.returned h)
  | function _ hresult => exact hresult
  | _ => exact .refl _

/-- What an index gives fades with the type of what is indexed. -/
theorem FadesTo.held (hP : Stable P) {a b : Ty} (h : FadesTo P a b) :
    FadesTo P a.held b.held := by
  cases h with
  | unknown h => exact .unknown (hP.held h)
  | array h => exact h
  | table _ hvalue => exact hvalue
  | _ => exact .refl _

/-! ## When only primitive types become unknown -/

/-- Whether a type fades to another one in primitive parts only. -/
abbrev Pales : Ty → Ty → Prop := FadesTo fun a => a.isPrimitive = true

abbrev PalesEach : List Ty → List Ty → Prop := FadesEach fun a => a.isPrimitive = true

mutual

/-- Compatible types are compatible still after primitive parts of both have become unknown. -/
theorem Pales.compatible : ∀ {a b a' b' : Ty}, a.compatible b = true → Pales a a' → Pales b b' →
    a'.compatible b' = true
  | .primitive k, .primitive l, a', b', h, ha, hb => by
    rcases ha.of_primitive with rfl | rfl <;> rcases hb.of_primitive with rfl | rfl <;>
      simp_all [Ty.compatible, Primitive.compatible]
  | .array _, .array _, _, _, h, .array ha, .array hb => by
    rw [Ty.compatible] at h ⊢
    exact Pales.compatible h ha hb
  | .table _ _, .table _ _, _, _, h, .table hk hv, .table hk' hv' => by
    rw [Ty.compatible, Bool.and_eq_true] at h ⊢
    exact ⟨Pales.compatible h.1 hk hk', Pales.compatible h.2 hv hv'⟩
  | .function _ _, .function _ _, _, _, h, .function hps hr, .function hqs hs => by
    rw [Ty.compatible, Bool.and_eq_true] at h ⊢
    exact ⟨PalesEach.compatibleEach h.1 hps hqs, Pales.compatible h.2 hr hs⟩
  | .custom _, .custom _, _, _, h, .custom _, .custom _ => h

/-- The same holds of lists of types, item by item. -/
theorem PalesEach.compatibleEach : ∀ {as bs as' bs' : List Ty}, Ty.compatibleEach as bs = true →
    PalesEach as as' → PalesEach bs bs' → Ty.compatibleEach as' bs' = true
  | [], [], _, _, h, .nil, .nil => rfl
  | _ :: _, _ :: _, _, _, h, .cons ha has, .cons hb hbs => by
    rw [Ty.compatibleEach, Bool.and_eq_true] at h ⊢
    exact ⟨Pales.compatible h.1 ha hb, PalesEach.compatibleEach h.2 has hbs⟩

end

/-- A type accepts another one still after primitive parts of both have become unknown. -/
theorem Pales.accepts {e a e' a' : Ty} (h : e.accepts a = true) (he : Pales e e')
    (ha : Pales a a') : e'.accepts a' = true := by
  rw [Ty.accepts, Bool.or_eq_true, Bool.or_eq_true] at h ⊢
  rcases h with (h | h) | h
  · exact .inl (.inl (he.isAny h))
  · exact .inl (.inr (ha.isAny h))
  · exact .inr (Pales.compatible h he ha)

end Ty

/-! ## Scopes -/

namespace Scope

variable {P : Ty → Prop}

/-- Whether a scope becomes another one when the types of its names fade. The same names
are bound. -/
def FadesTo (P : Ty → Prop) (s t : Scope) : Prop :=
  ∀ name, Option.Rel (Ty.FadesTo P) (s.lookup? name) (t.lookup? name)

/-- A scope fades to itself. -/
theorem FadesTo.refl (s : Scope) : FadesTo P s s := fun name => by
  cases s.lookup? name with
  | none => exact .none
  | some ty => exact .some (.refl ty)

/-- A name that is not bound is not bound in the faded scope either. -/
theorem FadesTo.unbound {s t : Scope} (h : FadesTo P s t) {name : String}
    (hname : s.lookup? name = none) : t.lookup? name = none := by
  have hrel := h name
  rw [hname] at hrel
  generalize t.lookup? name = found at hrel ⊢
  cases hrel
  rfl

/-- A name that is bound is bound to a faded type in the faded scope. -/
theorem FadesTo.bound {s t : Scope} (h : FadesTo P s t) {name : String} {ty : Ty}
    (hname : s.lookup? name = some ty) :
    ∃ ty', t.lookup? name = some ty' ∧ ty.FadesTo P ty' := by
  have hrel := h name
  rw [hname] at hrel
  generalize t.lookup? name = found at hrel ⊢
  cases hrel with
  | some hty => exact ⟨_, rfl, hty⟩

/-- A scope that has faded does so still without one of its names. -/
theorem FadesTo.erase {s t : Scope} (h : FadesTo P s t) (name : String) :
    FadesTo P (s.erase name) (t.erase name) := by
  intro other
  rw [lookup?_erase, lookup?_erase]
  split
  · exact .none
  · exact h other

/-- A scope that has faded does so still with a name bound to types of which one fades to the
other. -/
theorem FadesTo.declare {s t : Scope} (h : FadesTo P s t) (name : String) {a b : Ty}
    (hty : a.FadesTo P b) : FadesTo P (s.declare name a) (t.declare name b) := by
  intro other
  rw [lookup?_declare, lookup?_declare]
  split
  · exact .some hty
  · exact h other

/-- The expansion of a name fades with the scope. -/
theorem FadesTo.expand (hP : Ty.Stable P) {s t : Scope} (h : FadesTo P s t) (name : String) :
    (s.expand name).FadesTo P (t.expand name) := by
  induction s, name using Scope.expand.induct generalizing t with
  | case1 s name hnone =>
    rw [expand_of_unbound hnone, expand_of_unbound (h.unbound hnone)]
    exact .custom name
  | case2 s name ty hsome ih =>
    obtain ⟨ty', hsome', hty⟩ := h.bound hsome
    rw [expand_of_bound hsome, expand_of_bound hsome']
    exact hty.substitute hP fun other => ih other (h.erase name)

/-- A type that fades and is resolved in a scope that fades goes on to fade. -/
theorem FadesTo.resolve (hP : Ty.Stable P) {s t : Scope} (h : FadesTo P s t) {a b : Ty}
    (hty : a.FadesTo P b) : (s.resolve a).FadesTo P (t.resolve b) :=
  hty.substitute hP (h.expand hP)

end Scope

end GradualScript
