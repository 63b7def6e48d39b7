import GradualScript.Proofs.Ty.Fading
import GradualScript.Proofs.Ty.Names
import GradualScript.Typing.Verdict

/-!
# Types can be told from their texts

The text of a type puts no brackets around the result of a function, and separates with the
same comma what belongs to a table and what belongs to a function around it. It can be read
all the same, provided that the names in the type are plain (`Ty.IsPlain`): they are not
empty, hold none of the marks that set off the parts of a type, and are not the names of
primitive types.

Every text begins with a word without marks (`Ty.word`). An opening bracket comes after the
word of a type with components, and never after that of another one, where the text ends or
goes on with a comma or a closing bracket (`Ty.Ends`). So a text determines its type, and
also where it ends within a longer text (`Ty.render_append_inj`). The proof is by induction
on types, for any continuation of the text.

In particular the two texts in the report of a mismatch differ
(`Ty.render_ne_of_rejected`).
-/

set_option autoImplicit false

namespace GradualScript

namespace Ty

/-! ## Plain names -/

/-- The characters that set off the parts of a type. -/
def marks : List Char := ['<', '>', '(', ')', ',']

def reservedNames : List String :=
  [Primitive.number, .string, .boolean, .nil, .any].map Primitive.name

/-- Whether a name can be told from everything else in the text of a type. -/
def IsPlain (name : String) : Prop :=
  name ≠ "" ∧ (∀ c ∈ name.toList, c ∉ marks) ∧ name ∉ reservedNames

instance : DecidablePred IsPlain := fun name =>
  decidable_of_iff (name ≠ "" ∧ (name.toList.all fun c => !marks.contains c) = true ∧
    reservedNames.contains name = false) (by simp [IsPlain])

/-! ## Words and what comes after them -/

/-- What the text of a type begins with, up to its first mark. -/
def word : Ty → String
  | .primitive kind => kind.name
  | .array _ => "Array"
  | .table _ _ => "Table"
  | .function _ _ => "Function"
  | .custom name => name

/-- The text of a type from its first mark on. -/
def afterWord : Ty → List Char
  | .array element => '<' :: (element.render.toList ++ ['>'])
  | .table key value =>
    '<' :: (key.render.toList ++ ',' :: ' ' :: (value.render.toList ++ ['>']))
  | .function params result =>
    '(' :: ((renderEach params).toList ++ ')' :: ' ' :: '-' :: '>' :: ' ' :: result.render.toList)
  | _ => []

/-- The texts of the further types of a list, each behind a comma. -/
def afterFirst : List Ty → List Char
  | [] => []
  | b :: rest => ',' :: ' ' :: (renderEach (b :: rest)).toList

/-- The text of a type is its word and what comes after it. -/
theorem toList_render (a : Ty) : a.render.toList = a.word.toList ++ a.afterWord := by
  cases a <;> simp [render, word, afterWord]

/-- The text of a list of types is that of the first one and of those after it. -/
theorem toList_renderEach_cons (a : Ty) (rest : List Ty) :
    (renderEach (a :: rest)).toList = a.render.toList ++ afterFirst rest := by
  cases rest <;> simp [renderEach, afterFirst]

/-- A word is not empty and holds no marks. -/
theorem word_of_plain {a : Ty} (ha : a.Within IsPlain) :
    a.word ≠ "" ∧ ∀ c ∈ a.word.toList, c ∉ marks := by
  cases a with
  | primitive kind => cases kind <;> simp [word, Primitive.name, marks]
  | custom name =>
    obtain ⟨hne, hmarks, -⟩ := within_custom.1 ha
    exact ⟨hne, hmarks⟩
  | _ => simp [word, marks]

/-- Whether a text can come after that of a type: it is empty, or begins with a comma or a
closing bracket. -/
def Ends (rest : List Char) : Prop := ∀ c ∈ rest.head?, c = ',' ∨ c = '>' ∨ c = ')'

/-- What ends a text begins with a mark, if with anything. -/
theorem Ends.mem_marks {rest : List Char} (h : Ends rest) : ∀ c ∈ rest.head?, c ∈ marks := by
  intro c hc
  rcases h c hc with rfl | rfl | rfl <;> simp [marks]

/-- Words without marks that marks come after are the same if the texts are. -/
theorem eq_of_append_eq {w w' rest rest' : List Char} (hw : ∀ c ∈ w, c ∉ marks)
    (hw' : ∀ c ∈ w', c ∉ marks) (hrest : ∀ c ∈ rest.head?, c ∈ marks)
    (hrest' : ∀ c ∈ rest'.head?, c ∈ marks) (h : w ++ rest = w' ++ rest') :
    w = w' ∧ rest = rest' := by
  induction w generalizing w' with
  | nil =>
    cases w' with
    | nil => exact ⟨rfl, h⟩
    | cons c w' =>
      obtain rfl : rest = c :: (w' ++ rest') := h
      exact absurd (hrest c rfl) (hw' c List.mem_cons_self)
  | cons c w ih =>
    cases w' with
    | nil =>
      obtain rfl : c :: (w ++ rest) = rest' := h
      exact absurd (hrest' c rfl) (hw c List.mem_cons_self)
    | cons c' w' =>
      obtain ⟨rfl, htail⟩ := List.cons.inj h
      obtain ⟨rfl, hend⟩ := ih (fun d hd => hw d (List.mem_cons_of_mem _ hd))
        (fun d hd => hw' d (List.mem_cons_of_mem _ hd)) htail
      exact ⟨rfl, hend⟩

section

variable {a b : Ty} {rest rest' : List Char}

/-- What comes after the word of a type, and after the type, begins with a mark, if with
anything. -/
theorem head?_afterWord_append (a : Ty) (h : Ends rest) :
    ∀ c ∈ (a.afterWord ++ rest).head?, c ∈ marks := by
  cases a with
  | primitive | custom => exact h.mem_marks
  | _ => simp [afterWord, marks]

/-- If two types with something after them have the same text, they begin with the same word
and go on with the same. -/
theorem word_eq_of_render_append_eq (ha : a.Within IsPlain) (hb : b.Within IsPlain)
    (hrest : Ends rest) (hrest' : Ends rest')
    (h : a.render.toList ++ rest = b.render.toList ++ rest') :
    a.word = b.word ∧ a.afterWord ++ rest = b.afterWord ++ rest' := by
  rw [toList_render, toList_render, List.append_assoc, List.append_assoc] at h
  obtain ⟨hword, hafter⟩ := eq_of_append_eq (word_of_plain ha).2 (word_of_plain hb).2
    (head?_afterWord_append a hrest) (head?_afterWord_append b hrest') h
  exact ⟨String.toList_inj.1 hword, hafter⟩

/-- Types without components are the same if their words are. -/
theorem eq_of_word_eq (ha : a.Within IsPlain) (hb : b.Within IsPlain) (hnone : a.afterWord = [])
    (hnone' : b.afterWord = []) (h : a.word = b.word) : a = b := by
  have hreserved (kind : Primitive) : kind.name ∈ reservedNames := by
    cases kind <;> simp [reservedNames]
  cases a with
  | primitive kind =>
    cases b with
    | primitive kind' => cases kind <;> cases kind' <;> first | rfl | exact absurd h (by decide)
    | custom name =>
      obtain rfl : kind.name = name := h
      exact absurd (hreserved kind) (within_custom.1 hb).2.2
    | _ => simp [afterWord] at hnone'
  | custom name =>
    cases b with
    | primitive kind =>
      obtain rfl : name = kind.name := h
      exact absurd (hreserved kind) (within_custom.1 ha).2.2
    | custom name' => exact congrArg custom h
    | _ => simp [afterWord] at hnone'
  | _ => simp [afterWord] at hnone

/-- A type without components is determined by its text, since no opening bracket comes after
it. -/
theorem eq_of_render_append_eq_of_word (ha : a.Within IsPlain) (hb : b.Within IsPlain)
    (hnone : a.afterWord = []) (hrest : Ends rest) (hrest' : Ends rest')
    (h : a.render.toList ++ rest = b.render.toList ++ rest') :
    a = b ∧ rest = rest' := by
  obtain ⟨hword, hafter⟩ := word_eq_of_render_append_eq ha hb hrest hrest' h
  rw [hnone, List.nil_append] at hafter
  have hnone' : b.afterWord = [] := by
    subst hafter
    cases b with
    | primitive | custom => rfl
    | _ => simp [afterWord, Ends] at hrest
  rw [hnone', List.nil_append] at hafter
  exact ⟨eq_of_word_eq ha hb hnone hnone' hword, hafter⟩

end

/-! ## Reading a type off its text -/

/-- A comma or a closing bracket ends a text. -/
theorem ends_cons {c : Char} {rest : List Char} (h : c = ',' ∨ c = '>' ∨ c = ')') :
    Ends (c :: rest) := by
  intro d hd
  obtain rfl : c = d := Option.some.inj hd
  exact h

/-- What comes after the first type of a list of parameters ends its text. -/
theorem ends_afterFirst (as : List Ty) (rest : List Char) :
    Ends (afterFirst as ++ ')' :: rest) := by
  cases as <;> exact ends_cons (by simp)

/-- The bracket that closes the parameters of a function does not come before the first of
them. -/
theorem renderEach_cons_append_ne {a : Ty} {as : List Ty} {rest rest' : List Char}
    (ha : a.Within IsPlain) : (renderEach (a :: as)).toList ++ rest ≠ ')' :: rest' := by
  obtain ⟨hne, hmarks⟩ := word_of_plain ha
  rw [toList_renderEach_cons, toList_render]
  cases hword : a.word.toList with
  | nil => exact absurd (String.toList_eq_nil_iff.1 hword) hne
  | cons c w =>
    intro h
    obtain rfl : c = ')' := (List.cons.inj h).1
    exact hmarks ')' (by simp [hword]) (by simp [marks])

mutual

/-- If two types with something after them have the same text, the types are the same and so
is what comes after them. -/
theorem render_append_inj : ∀ {a b : Ty} {rest rest' : List Char}, a.Within IsPlain →
    b.Within IsPlain → Ends rest → Ends rest' →
    a.render.toList ++ rest = b.render.toList ++ rest' → a = b ∧ rest = rest'
  | .primitive _, _, _, _, ha, hb, hrest, hrest', h =>
    eq_of_render_append_eq_of_word ha hb rfl hrest hrest' h
  | .custom _, _, _, _, ha, hb, hrest, hrest', h =>
    eq_of_render_append_eq_of_word ha hb rfl hrest hrest' h
  | .array e, b, rest, rest', ha, hb, hrest, hrest', h => by
    -- The first word tells the composites apart. What follows it is compared part by part.
    obtain ⟨hword, hafter⟩ := word_eq_of_render_append_eq ha hb hrest hrest' h
    cases b with
    | array e' =>
      have helement : e.render.toList ++ '>' :: rest = e'.render.toList ++ '>' :: rest' := by
        simpa [afterWord] using hafter
      have he := within_array.1 ha
      have he' := within_array.1 hb
      obtain ⟨rfl, hend⟩ :=
        render_append_inj he he' (ends_cons (by simp)) (ends_cons (by simp)) helement
      exact ⟨rfl, (List.cons.inj hend).2⟩
    | table | function => simp [word] at hword
    | primitive | custom =>
      exact (eq_of_render_append_eq_of_word hb ha rfl hrest' hrest h.symm).imp Eq.symm Eq.symm
  | .table k v, b, rest, rest', ha, hb, hrest, hrest', h => by
    obtain ⟨hword, hafter⟩ := word_eq_of_render_append_eq ha hb hrest hrest' h
    cases b with
    | table k' v' =>
      obtain ⟨hk, hv⟩ := within_table.1 ha
      obtain ⟨hk', hv'⟩ := within_table.1 hb
      have hkey : k.render.toList ++ ',' :: ' ' :: (v.render.toList ++ '>' :: rest) =
          k'.render.toList ++ ',' :: ' ' :: (v'.render.toList ++ '>' :: rest') := by
        simpa [afterWord] using hafter
      obtain ⟨rfl, hvalue⟩ :=
        render_append_inj hk hk' (ends_cons (by simp)) (ends_cons (by simp)) hkey
      obtain ⟨rfl, hend⟩ := render_append_inj hv hv' (ends_cons (by simp)) (ends_cons (by simp))
        (List.cons.inj (List.cons.inj hvalue).2).2
      exact ⟨rfl, (List.cons.inj hend).2⟩
    | array | function => simp [word] at hword
    | primitive | custom =>
      exact (eq_of_render_append_eq_of_word hb ha rfl hrest' hrest h.symm).imp Eq.symm Eq.symm
  | .function ps r, b, rest, rest', ha, hb, hrest, hrest', h => by
    obtain ⟨hword, hafter⟩ := word_eq_of_render_append_eq ha hb hrest hrest' h
    cases b with
    | function qs r' =>
      obtain ⟨hps, hr⟩ := within_function.1 ha
      obtain ⟨hqs, hr'⟩ := within_function.1 hb
      have hparams : (renderEach ps).toList ++
            ')' :: ' ' :: '-' :: '>' :: ' ' :: (r.render.toList ++ rest) =
          (renderEach qs).toList ++
            ')' :: ' ' :: '-' :: '>' :: ' ' :: (r'.render.toList ++ rest') := by
        simpa [afterWord] using hafter
      obtain ⟨rfl, hresult⟩ := renderEach_append_inj hps hqs hparams
      obtain ⟨rfl, hend⟩ := render_append_inj hr hr' hrest hrest' (by simpa using hresult)
      exact ⟨rfl, hend⟩
    | array | table => simp [word] at hword
    | primitive | custom =>
      exact (eq_of_render_append_eq_of_word hb ha rfl hrest' hrest h.symm).imp Eq.symm Eq.symm

/-- The same for lists of types up to the bracket that closes them. -/
theorem renderEach_append_inj : ∀ {as bs : List Ty} {rest rest' : List Char},
    (∀ a ∈ as, a.Within IsPlain) → (∀ a ∈ bs, a.Within IsPlain) →
    (renderEach as).toList ++ ')' :: rest = (renderEach bs).toList ++ ')' :: rest' →
      as = bs ∧ rest = rest'
  | [], [], _, _, _, _, h => ⟨rfl, by simpa [renderEach] using h⟩
  | [], _ :: _, _, _, _, hbs, h =>
    absurd h.symm (renderEach_cons_append_ne (List.forall_mem_cons.1 hbs).1)
  | _ :: _, [], _, _, has, _, h =>
    absurd h (renderEach_cons_append_ne (List.forall_mem_cons.1 has).1)
  | a :: as, b :: bs, rest, rest', has, hbs, h => by
    obtain ⟨ha, hothersA⟩ := List.forall_mem_cons.1 has
    obtain ⟨hb, hothersB⟩ := List.forall_mem_cons.1 hbs
    rw [toList_renderEach_cons, toList_renderEach_cons, List.append_assoc, List.append_assoc] at h
    obtain ⟨rfl, hothers⟩ :=
      render_append_inj ha hb (ends_afterFirst as rest) (ends_afterFirst bs rest') h
    -- Either both lists end here, or a comma goes on with both.
    cases as with
    | nil =>
      cases bs with
      | nil => exact ⟨rfl, (List.cons.inj hothers).2⟩
      | cons => simp [afterFirst] at hothers
    | cons a' as =>
      cases bs with
      | nil => simp [afterFirst] at hothers
      | cons b' bs =>
        have hrest : (renderEach (a' :: as)).toList ++ ')' :: rest =
            (renderEach (b' :: bs)).toList ++ ')' :: rest' := by
          simpa [afterFirst] using hothers
        obtain ⟨hsame, hend⟩ := renderEach_append_inj hothersA hothersB hrest
        exact ⟨congrArg (List.cons a) hsame, hend⟩

end

/-- A type with plain names is determined by its text. -/
theorem render_inj {a b : Ty} (ha : a.Within IsPlain) (hb : b.Within IsPlain)
    (h : a.render = b.render) : a = b := by
  have hnil : Ends [] := by simp [Ends]
  exact (render_append_inj ha hb hnil hnil (by rw [h])).1

/-- Types of which one does not accept the other have different texts, since every type accepts
itself. -/
theorem render_ne_of_rejected {a b : Ty} (ha : a.Within IsPlain) (hb : b.Within IsPlain)
    (h : a.accepts b = false) : a.render ≠ b.render := by
  intro htexts
  obtain rfl := render_inj ha hb htexts
  rw [accepts, compatible_self, Bool.or_true] at h
  contradiction

/-- For types with plain names, the same text means the same type. So if one of them is
expected and the other one does not fit it, the report has two different texts. -/
theorem eq_of_render_eq (a b : Ty) (ha : a.Within IsPlain) (hb : b.Within IsPlain) :
    (a.render = b.render → a = b) ∧
      (a.accepts b = false →
        a.expect b = [.mismatch a.render b.render] ∧ a.render ≠ b.render) := by
  refine ⟨render_inj ha hb, fun hrejected => ⟨?_, render_ne_of_rejected ha hb hrejected⟩⟩
  rw [expect, if_neg (by simp [hrejected])]

/-- Two functions that give a function: one takes a table first and then nothing, and the other
one the other way round. -/
theorem eq_of_render_eq_curried :
    let a := function [.table (.custom "Point") .any] (.function [] (.custom "Point"))
    let b := function [] (.function [.table (.custom "Point") .any] (.custom "Point"))
    a.Within IsPlain ∧ b.Within IsPlain ∧ a.accepts b = false ∧
      a.expect b = [.mismatch "Function(Table<Point, Any>) -> Function() -> Point"
        "Function() -> Function(Table<Point, Any>) -> Point"] ∧ a.render ≠ b.render := by
  intro a b
  have ha : a.Within IsPlain := by decide
  have hb : b.Within IsPlain := by decide
  have hrejected : a.accepts b = false := by decide
  exact ⟨ha, hb, hrejected, (eq_of_render_eq a b ha hb).2 hrejected⟩

-- A name with a comma in it can be read as two.
example : (function [.custom "Number, String"] .nil).render =
    (function [.number, .string] .nil).render := by decide

end Ty

end GradualScript
