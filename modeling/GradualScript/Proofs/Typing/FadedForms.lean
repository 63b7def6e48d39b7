import GradualScript.Proofs.Ty.Fading
import GradualScript.Proofs.Typing.Rules

/-!
# Forms whose types fade

What becomes of a form that has nothing to report when the types of its children fade. Its
own type fades, so does the scope after it, and what there is to report then comes from
types that were accepted and, having faded, no longer are. `Parting P Q` says that `Q`
holds of all such reports where `P` holds of all that becomes unknown.

Everything here is about lenient checks with the built-in operators. Of these only
equality compares types that need not be primitive.
-/

set_option autoImplicit false

namespace GradualScript

/-- What is reported of types that are no longer accepted after they have faded. The truth
value of a comparison becomes unknown when it is reported. -/
structure Parting (P : Ty → Prop) (Q : Diagnostic → Prop) : Prop where
  stable : Ty.Stable P
  boolean : P .boolean
  mismatch {e a e' a' : Ty} : e.accepts a = true → e.FadesTo P e' → a.FadesTo P a' →
    e'.accepts a' = false → Q (.mismatch e'.render a'.render)
  unequal {op : BinaryOp} {e a e' a' : Ty} : op = .eq ∨ op = .ne → e.accepts a = true →
    e.FadesTo P e' → a.FadesTo P a' → e'.accepts a' = false →
    Q (.operator op.symbol (e'.render ++ " and " ++ a'.render))

variable {P : Ty → Prop} {Q : Diagnostic → Prop}

namespace Ty

/-- A type that was accepted and has faded is reported only in a way that is allowed for. -/
theorem expect_faded (hQ : Parting P Q) {e a e' a' : Ty} (h : e.expect a = [])
    (he : e.FadesTo P e') (ha : a.FadesTo P a') : ∀ d ∈ e'.expect a', Q d := by
  unfold expect
  cases hfits : e'.accepts a' with
  | true => simp
  | false => simpa using hQ.mismatch (expect_eq_nil_iff.1 h) he ha hfits

/-- The same holds of several types that are held against one. -/
theorem flatMap_expect_faded (hQ : Parting P Q) {e e' : Ty} (he : e.FadesTo P e')
    {as as' : List Ty} (h : as.flatMap e.expect = []) (has : FadesEach P as as') :
    ∀ d ∈ as'.flatMap e'.expect, Q d := by
  induction as generalizing as' with
  | nil => cases has; simp
  | cons a as ih =>
    cases has with
    | cons ha has =>
      rw [List.flatMap_cons, List.append_eq_nil_iff] at h
      intro d hd
      rw [List.flatMap_cons, List.mem_append] at hd
      exact hd.elim (expect_faded hQ h.1 he ha d) (ih h.2 has d)

/-- The items of a constructor are held against the first after all have faded. -/
theorem expectAlike_faded (hQ : Parting P Q) {as as' : List Ty} (h : expectAlike none as = [])
    (has : FadesEach P as as') : ∀ d ∈ expectAlike none as', Q d := by
  cases has with
  | nil => simp [expectAlike]
  | cons ha has =>
    rw [expectAlike, Option.getD_none, expectAlike_some] at h ⊢
    exact flatMap_expect_faded hQ ha h has

/-- The same holds of types that are held against others, pair by pair. -/
theorem expectEach_faded (hQ : Parting P Q) {es es' as as' : List Ty}
    (h : expectEach es as = []) (hes : FadesEach P es es') (has : FadesEach P as as') :
    ∀ d ∈ expectEach es' as', Q d := by
  induction es generalizing as es' as' with
  | nil => cases hes; simp [expectEach]
  | cons e es ih =>
    cases hes with
    | cons he hes =>
      cases has with
      | nil => simp [expectEach]
      | cons ha has =>
        rw [expectEach, List.append_eq_nil_iff] at h
        intro d hd
        rw [expectEach, List.mem_append] at hd
        rcases hd with hd | hd
        · exact expect_faded hQ h.1 he ha d hd
        · exact ih h.2 hes has d hd

/-- The first of some types fades with them, and is unknown on both sides if there is none. -/
theorem FadesEach.headD {as as' : List Ty} (h : FadesEach P as as') :
    FadesTo P (as.headD .any) (as'.headD .any) := by
  cases h with
  | nil => exact .refl _
  | cons hhead _ => exact hhead

end Ty

/-! ## Verdicts -/

namespace Operators

/-- Of the built-in rules for binary operators all but those of equality ask for operands
of a primitive type. -/
theorem builtin_binary (op : BinaryOp) :
    (∃ kind result, builtin.binary op =
        some (.uniform (.primitive kind) (.primitive result))) ∨
      (op = .eq ∨ op = .ne) ∧ builtin.binary op = some (.alike .boolean) := by
  cases op <;> first | exact .inl ⟨_, _, rfl⟩ | exact .inr ⟨by simp, rfl⟩

/-- A binary operation has the same type when its operands have faded, unless it is a
comparison of operands that are no longer alike. -/
theorem binary?_faded {op : BinaryOp} {l l' r r' ty : Ty}
    (h : builtin.binary? op l r = some ty) (hl : l.FadesTo P l') (hr : r.FadesTo P r') :
    builtin.binary? op l' r' = some ty ∨
      (op = .eq ∨ op = .ne) ∧ l.accepts r = true ∧ l'.accepts r' = false ∧ ty = .boolean ∧
        builtin.binary? op l' r' = none := by
  rcases builtin_binary op with ⟨kind, result, hrule⟩ | ⟨hop, hrule⟩
  · -- Operands of a primitive type still have that type, or are not known.
    rw [binary?, hrule] at h ⊢
    simp only [Option.bind_some, BinaryRule.result?] at h ⊢
    split at h
    · rename_i hfits
      rw [Bool.and_eq_true] at hfits
      rw [hl.accepts_primitive hfits.1, hr.accepts_primitive hfits.2]
      exact .inl h
    · contradiction
  · -- A comparison takes all operands that are alike.
    rw [binary?, hrule] at h ⊢
    simp only [Option.bind_some, BinaryRule.result?] at h ⊢
    split at h
    · rename_i hfits
      cases hfits' : l'.accepts r' with
      | true => exact .inl h
      | false => exact .inr ⟨hop, hfits, rfl, (Option.some.inj h).symm, rfl⟩
    · contradiction

/-- What has a length still has one when its type fades, or is not known. -/
theorem isSized_faded {a a' : Ty} (h : a.isSized = true) (ha : a.FadesTo P a') :
    a'.isSized = true := by
  cases ha with
  | unknown _ => rfl
  | _ => exact h

/-- An operator that has a rule for an operand has the same result for it after it has faded. -/
theorem unary?_faded {op : UnaryOp} {a a' ty : Ty} (h : builtin.unary? op a = some ty)
    (ha : a.FadesTo P a') : builtin.unary? op a' = some ty := by
  have huniform {kind : Primitive} {result : Ty}
      (h : (UnaryRule.uniform (.primitive kind) result).result? a = some ty) :
      (UnaryRule.uniform (.primitive kind) result).result? a' = some ty := by
    simp only [UnaryRule.result?] at h ⊢
    split at h
    · rename_i hfits
      rw [ha.accepts_primitive hfits]
      exact h
    · contradiction
  cases op with
  | negate => exact huniform h
  | not => exact huniform h
  | length =>
    simp only [unary?, builtin, Option.bind_some, UnaryRule.result?] at h ⊢
    split at h
    · rename_i hsized
      rw [isSized_faded hsized ha]
      exact h
    · contradiction

end Operators

namespace Verdict

/-- An operation that a rule has a result for has this type, and nothing is reported. -/
theorem ofBinary_of_some {ops : Operators} {op : BinaryOp} {l r ty : Ty}
    (h : ops.binary? op l r = some ty) : ofBinary ops op l r = ⟨ty, []⟩ := by
  rw [ofBinary, h]

/-- An operation of which nothing is reported has a result by some rule. -/
theorem exists_of_ofBinary {ops : Operators} {op : BinaryOp} {l r : Ty}
    (h : (ofBinary ops op l r).reports = []) : ∃ ty, ops.binary? op l r = some ty := by
  cases hty : ops.binary? op l r with
  | some ty => exact ⟨ty, rfl⟩
  | none => simp [ofBinary, hty] at h

/-- The type of an operation on two operands fades with them, and what is reported then is allowed
for. -/
theorem ofBinary_faded (hQ : Parting P Q) {op : BinaryOp} {l l' r r' : Ty}
    (h : (ofBinary .builtin op l r).reports = []) (hl : l.FadesTo P l') (hr : r.FadesTo P r') :
    (ofBinary .builtin op l r).ty.FadesTo P (ofBinary .builtin op l' r').ty ∧
      ∀ d ∈ (ofBinary .builtin op l' r').reports, Q d := by
  obtain ⟨ty, hty⟩ := exists_of_ofBinary h
  rw [ofBinary_of_some hty]
  rcases Operators.binary?_faded hty hl hr with hsame | ⟨hop, hfits, hunfit, rfl, hnone⟩
  · rw [ofBinary_of_some hsame]
    exact ⟨.refl _, by simp⟩
  · rw [ofBinary, hnone]
    refine ⟨.unknown hQ.boolean, ?_⟩
    simpa using hQ.unequal hop hfits hl hr hunfit

/-- The type of an operation on one operand fades with it, and what is reported then is allowed
for. -/
theorem ofUnary_faded {op : UnaryOp} {a a' : Ty} (h : (ofUnary .builtin op a).reports = [])
    (ha : a.FadesTo P a') :
    (ofUnary .builtin op a).ty.FadesTo P (ofUnary .builtin op a').ty ∧
      ∀ d ∈ (ofUnary .builtin op a').reports, Q d := by
  cases hty : Operators.builtin.unary? op a with
  | none => simp [ofUnary, hty] at h
  | some ty =>
    rw [ofUnary, ofUnary, hty, Operators.unary?_faded hty ha]
    exact ⟨.refl _, by simp⟩

/-- What is reported of a call whose types have faded is allowed for. -/
theorem ofCall_faded (hQ : Parting P Q) {f f' : Ty} {as as' : List Ty} {selfCall : Bool}
    (h : (ofCall f as selfCall).reports = []) (hf : f.FadesTo P f')
    (has : Ty.FadesEach P as as') : ∀ d ∈ (ofCall f' as' selfCall).reports, Q d := by
  cases hf with
  | unknown _ => simp [ofCall]
  | primitive kind =>
    have hsame : (ofCall (.primitive kind) as' selfCall).reports =
        (ofCall (.primitive kind) as selfCall).reports := by cases kind <;> rfl
    rw [hsame, h]
    simp
  | @function ps qs r r' hparams _ =>
    have hopen : Ty.FadesEach P (openParams ps selfCall) (openParams qs selfCall) := by
      unfold openParams
      split
      · exact hparams.drop 1
      · exact hparams
    simp only [ofCall] at h ⊢
    rw [List.append_eq_nil_iff] at h
    -- As many arguments as parameters stay as many when their types fade.
    have hcount : (openParams ps selfCall).length = as.length := by
      apply Classical.byContradiction
      intro hne
      simp [hne] at h
    rw [if_pos (hopen.length_eq.symm.trans (hcount.trans has.length_eq)), List.nil_append]
    exact Ty.expectEach_faded hQ h.2 hopen has
  | _ => simp [ofCall] at h

/-- What is reported of an index whose types have faded is allowed for. -/
theorem ofIndex_faded (hQ : Parting P Q) {t t' k k' : Ty} (h : (ofIndex t k).reports = [])
    (ht : t.FadesTo P t') (hk : k.FadesTo P k') : ∀ d ∈ (ofIndex t' k').reports, Q d := by
  cases ht with
  | unknown _ => simp [ofIndex]
  | primitive kind =>
    have hsame : (ofIndex (.primitive kind) k').reports =
        (ofIndex (.primitive kind) k).reports := by cases kind <;> rfl
    rw [hsame, h]
    simp
  | array _ => exact Ty.expect_faded hQ h (.refl _) hk
  | table hkey _ => exact Ty.expect_faded hQ h hkey hk
  | _ => simp [ofIndex] at h

/-- What is reported of a binding whose types have faded is allowed for. -/
theorem ofBinding_faded (hQ : Parting P Q) {declared declared' value value' : Option Ty}
    (h : (ofBinding declared value).reports = [])
    (hdeclared : Option.Rel (Ty.FadesTo P) declared declared')
    (hvalue : Option.Rel (Ty.FadesTo P) value value') :
    ∀ d ∈ (ofBinding declared' value').reports, Q d := by
  cases hdeclared with
  | none => cases hvalue <;> simp [ofBinding]
  | some he =>
    cases hvalue with
    | none => simp [ofBinding]
    | some ha => exact Ty.expect_faded hQ h he ha

end Verdict

/-! ## Forms -/

def Checker.lenient : Checker := ⟨false, .builtin⟩

namespace Form

variable {s t : Scope} {nodes nodes' : List Node}

/-- A single node whose type fades becomes a single node with the faded type. -/
theorem exists_one_faded (hlength : nodes.length = 1)
    (hnodes : Ty.FadesEach P (nodes.map Node.written) (nodes'.map Node.written)) :
    ∃ a a', nodes = [a] ∧ nodes' = [a'] ∧ a.written.FadesTo P a'.written := by
  obtain ⟨a, rfl⟩ := List.length_eq_one_iff.1 hlength
  have hlength' : nodes'.length = 1 := by simpa using hnodes.length_eq.symm
  obtain ⟨a', rfl⟩ := List.length_eq_one_iff.1 hlength'
  cases hnodes with
  | cons ha _ => exact ⟨a, a', rfl, rfl, ha⟩

/-- Two nodes whose types fade become two nodes with the faded types. -/
theorem exists_two_faded (hlength : nodes.length = 2)
    (hnodes : Ty.FadesEach P (nodes.map Node.written) (nodes'.map Node.written)) :
    ∃ a b a' b', nodes = [a, b] ∧ nodes' = [a', b'] ∧ a.written.FadesTo P a'.written ∧
      b.written.FadesTo P b'.written := by
  obtain ⟨a, rest, rfl⟩ := List.exists_cons_of_length_eq_add_one hlength
  have hlength' : nodes'.length = 2 := by
    simpa using hnodes.length_eq.symm.trans (by simpa using hlength)
  obtain ⟨a', rest', rfl⟩ := List.exists_cons_of_length_eq_add_one hlength'
  cases hnodes with
  | cons ha hrest =>
    obtain ⟨b, b', rfl, rfl, hb⟩ := exists_one_faded (Nat.succ.inj hlength) hrest
    exact ⟨a, b, a', b', rfl, rfl, ha, hb⟩

/-- A binding fades with the scope and with its value. -/
theorem binding_faded (hQ : Parting P Q) (x : String) (declared : Option Ty)
    (hst : s.FadesTo P t) {value value' : Option Node}
    (hvalue : Option.Rel (Ty.FadesTo P) (value.map Node.written) (value'.map Node.written))
    (hclean : (binding x declared value).reports .lenient s = []) :
    ((binding x declared value).impliedTy .builtin s).FadesTo P
        ((binding x declared value').impliedTy .builtin t) ∧
      (s.after (binding x declared value)).FadesTo P (t.after (binding x declared value')) ∧
      ∀ d ∈ (binding x declared value').reports .lenient t, Q d := by
  have hdeclared : Option.Rel (Ty.FadesTo P) (declared.map s.resolve) (declared.map t.resolve) := by
    cases declared with
    | none => exact .none
    | some e => exact .some (hst.resolve hQ.stable (.refl e))
  have hbound : (s.boundTy declared value).FadesTo P (t.boundTy declared value') := by
    have hgetD {o o' : Option Ty} {d d' : Ty} (ho : Option.Rel (Ty.FadesTo P) o o')
        (hd : d.FadesTo P d') : (o.getD d).FadesTo P (o'.getD d') := by
      cases ho with
      | none => exact hd
      | some h => exact h
    exact hgetD hdeclared (hgetD hvalue (.refl _))
  have hrebind (r : Scope) (ty : Ty) : Checker.lenient.rebindReports r x ty = [] := by
    unfold Checker.rebindReports
    split <;> rfl
  rw [reports, hrebind, List.append_nil] at hclean
  refine ⟨.refl _, hst.declare x hbound, ?_⟩
  rw [reports, hrebind, List.append_nil]
  exact Verdict.ofBinding_faded hQ hclean hdeclared hvalue

/-- A table constructor fades with the scope and with its keys and its values. -/
theorem table_faded (hQ : Parting P Q) (hst : s.FadesTo P t) {keys values keys' values' : List Node}
    (hlength : keys.length = values.length)
    (hkeys : Ty.FadesEach P (keys.map Node.written) (keys'.map Node.written))
    (hvalues : Ty.FadesEach P (values.map Node.written) (values'.map Node.written))
    (hclean : (table (keys.zip values)).reports .lenient s = []) :
    ((table (keys.zip values)).impliedTy .builtin s).FadesTo P
        ((table (keys'.zip values')).impliedTy .builtin t) ∧
      (s.after (table (keys.zip values))).FadesTo P (t.after (table (keys'.zip values'))) ∧
      ∀ d ∈ (table (keys'.zip values')).reports .lenient t, Q d := by
  have hlengthKeys : keys.length = keys'.length := by simpa using hkeys.length_eq
  have hlengthValues : values.length = values'.length := by simpa using hvalues.length_eq
  have hfst : (keys.zip values).map (·.1) = keys := List.map_fst_zip (by omega)
  have hsnd : (keys.zip values).map (·.2) = values := List.map_snd_zip (by omega)
  have hfst' : (keys'.zip values').map (·.1) = keys' := List.map_fst_zip (by omega)
  have hsnd' : (keys'.zip values').map (·.2) = values' := List.map_snd_zip (by omega)
  simp only [reports, impliedTy] at hclean ⊢
  rw [hfst, hsnd, List.append_eq_nil_iff] at hclean
  rw [hfst, hsnd, hfst', hsnd']
  refine ⟨.table hkeys.headD hvalues.headD, hst, ?_⟩
  intro d hd
  rcases List.mem_append.1 hd with hd | hd
  · exact Ty.expectAlike_faded hQ hclean.1 hkeys d hd
  · exact Ty.expectAlike_faded hQ hclean.2 hvalues d hd

/-- What becomes of a form that has nothing to report when the types of its children fade,
and, if it is a call, those of its arguments. -/
theorem faded (hQ : Parting P Q) (form : Form) (hst : s.FadesTo P t)
    (hlength : nodes.length = form.children.length)
    (hnodes : Ty.FadesEach P (nodes.map Node.written) (nodes'.map Node.written))
    (harguments : form.isCall = true → ∀ arguments arguments', nodes[1]? = some arguments →
      nodes'[1]? = some arguments' →
      Ty.FadesEach P arguments.argumentTys arguments'.argumentTys)
    (hclean : (form.withChildren nodes).reports .lenient s = []) :
    ((form.withChildren nodes).impliedTy .builtin s).FadesTo P
        ((form.withChildren nodes').impliedTy .builtin t) ∧
      (s.after (form.withChildren nodes)).FadesTo P (t.after (form.withChildren nodes')) ∧
      ∀ d ∈ (form.withChildren nodes').reports .lenient t, Q d := by
  cases form with
  | name x =>
    refine ⟨?_, hst, ?_⟩
    · have hx := hst x
      simp only [withChildren, impliedTy]
      generalize s.lookup? x = found at hx ⊢
      generalize t.lookup? x = found' at hx ⊢
      cases hx with
      | none => exact .refl _
      | some hty => exact hst.resolve hQ.stable hty
    · simp only [withChildren, reports, Checker.unboundReports]
      split <;> simp [Checker.lenient]
  | binary op left right =>
    obtain ⟨l, r, l', r', rfl, rfl, hl, hr⟩ := exists_two_faded hlength hnodes
    obtain ⟨hty, hreports⟩ := Verdict.ofBinary_faded hQ hclean hl hr
    rw [Verdict.ofBinary_ty, Verdict.ofBinary_ty] at hty
    exact ⟨hty, hst, hreports⟩
  | unary op operand =>
    obtain ⟨a, a', rfl, rfl, ha⟩ := exists_one_faded hlength hnodes
    obtain ⟨hty, hreports⟩ := Verdict.ofUnary_faded hclean ha
    rw [Verdict.ofUnary_ty, Verdict.ofUnary_ty] at hty
    exact ⟨hty, hst, hreports⟩
  | call callee arguments selfCall =>
    obtain ⟨f, args, f', args', rfl, rfl, hf, -⟩ := exists_two_faded hlength hnodes
    exact ⟨hf.returned hQ.stable, hst,
      Verdict.ofCall_faded hQ hclean hf (harguments rfl args args' rfl rfl)⟩
  | group inner =>
    obtain ⟨a, a', rfl, rfl, ha⟩ := exists_one_faded hlength hnodes
    exact ⟨ha, hst, by simp [withChildren, reports]⟩
  | statement expression =>
    obtain ⟨a, a', rfl, rfl, -⟩ := exists_one_faded hlength hnodes
    exact ⟨.refl _, hst, by simp [withChildren, reports]⟩
  | binding x declared value =>
    cases value with
    | none => exact binding_faded hQ x declared hst .none hclean
    | some value =>
      obtain ⟨a, a', rfl, rfl, ha⟩ := exists_one_faded hlength hnodes
      have hvalue : Option.Rel (Ty.FadesTo P) ((some a).map Node.written)
          ((some a').map Node.written) := .some ha
      exact binding_faded hQ x declared hst hvalue hclean
  | array items =>
    exact ⟨.array hnodes.headD, hst, Ty.expectAlike_faded hQ hclean hnodes⟩
  | table pairs =>
    have hpairs : nodes.length = pairs.length + pairs.length := by simpa [children] using hlength
    exact table_faded hQ hst (by simp; omega) (by simpa using hnodes.take pairs.length)
      (by simpa using hnodes.drop pairs.length) hclean
  | index target key =>
    obtain ⟨a, k, a', k', rfl, rfl, ha, hk⟩ := exists_two_faded hlength hnodes
    exact ⟨ha.held hQ.stable, hst, Verdict.ofIndex_faded hQ hclean ha hk⟩
  | _ => exact ⟨.refl _, hst, by simp [withChildren, reports]⟩

end Form

end GradualScript
