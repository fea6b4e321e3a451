import Packrat.Expr.Printer
import Packrat.Expr.Reader
import Mathlib.Data.List.Basic

/-!
Sequences inside of sequences.

The text of an expression does not show where an unlabelled sequence begins that is an item of
another one.  `Expr.flatten` splices such sequences into those around them, so that none is left
(`Expr.spliced_flatten`), and does nothing else: where there is none it keeps the expression
(`Expr.Spliced.flatten`).  It changes neither the text of an expression nor the names it refers to,
provided that no sequence is empty, as in every expression that can be written (`Expr.Writable`).
-/

namespace Packrat

namespace Bytes

theorem join_cons {separator b : Bytes} {bs : List Bytes} (h : bs ≠ []) :
    join separator (b :: bs) = b ++ separator ++ join separator bs := by
  cases bs with
  | nil => exact absurd rfl h
  | cons c cs => rfl

theorem join_append {separator : Bytes} {as bs : List Bytes} (ha : as ≠ []) (hb : bs ≠ []) :
    join separator (as ++ bs) = join separator as ++ separator ++ join separator bs := by
  induction as with
  | nil => exact absurd rfl ha
  | cons a as ih =>
    by_cases has : as = []
    · subst has
      exact join_cons hb
    · rw [List.cons_append, join_cons (by simp [has]), join_cons has, ih has]
      simp only [List.append_assoc]

end Bytes

namespace Expr

/-! ### Splicing -/

/-- The items that an expression becomes inside of a sequence. -/
def pieces : Expr → List Expr
  | seq none items => items
  | e => [e]

mutual

/-- The expression with every unlabelled sequence that is an item of a sequence spliced into it. -/
def flatten : Expr → Expr
  | atom l a => atom l a
  | apply l op e => apply l op (flatten e)
  | seq l items => seq l (spliceAll items)
  | choice l items => choice l (flattenAll items)

def flattenAll : List Expr → List Expr
  | [] => []
  | e :: es => flatten e :: flattenAll es

/-- The items of a sequence, spliced together. -/
def spliceAll : List Expr → List Expr
  | [] => []
  | e :: es => (flatten e).pieces ++ spliceAll es

end

mutual

/-- No unlabelled sequence is an item of a sequence. -/
def Spliced : Expr → Prop
  | atom _ _ => True
  | apply _ _ e => Spliced e
  | seq _ items => AllSpliced items ∧ ∀ inner, seq none inner ∉ items
  | choice _ items => AllSpliced items

def AllSpliced : List Expr → Prop
  | [] => True
  | e :: es => Spliced e ∧ AllSpliced es

end

theorem AllSpliced.append {as bs : List Expr} (ha : AllSpliced as) (hb : AllSpliced bs) :
    AllSpliced (as ++ bs) := by
  induction as with
  | nil => exact hb
  | cons a as ih => exact ⟨ha.1, ih ha.2⟩

/-- What a spliced expression becomes inside of a sequence is spliced, and no unlabelled sequence. -/
theorem Spliced.pieces : ∀ {e : Expr}, e.Spliced →
    AllSpliced e.pieces ∧ ∀ inner, seq none inner ∉ e.pieces
  | seq none _, h => h
  | seq (some _) _, h | atom _ _, h | apply _ _ _, h | choice _ _, h =>
    ⟨⟨h, trivial⟩, fun _ hmem => nomatch List.mem_singleton.mp hmem⟩

mutual

/-- Splicing leaves no sequence to be spliced. -/
theorem spliced_flatten : ∀ e : Expr, e.flatten.Spliced
  | atom _ _ => trivial
  | apply _ _ e => spliced_flatten e
  | seq _ items => spliced_spliceAll items
  | choice _ items => allSpliced_flattenAll items

theorem allSpliced_flattenAll : ∀ es : List Expr, AllSpliced (flattenAll es)
  | [] => trivial
  | e :: es => ⟨spliced_flatten e, allSpliced_flattenAll es⟩

theorem spliced_spliceAll : ∀ es : List Expr,
    AllSpliced (spliceAll es) ∧ ∀ inner, seq none inner ∉ spliceAll es
  | [] => ⟨trivial, fun _ => List.not_mem_nil⟩
  | e :: es => by
    obtain ⟨hfirst, hnone⟩ := (spliced_flatten e).pieces
    obtain ⟨hothers, hnone'⟩ := spliced_spliceAll es
    rw [spliceAll]
    refine ⟨hfirst.append hothers, fun inner hmem => ?_⟩
    exact (List.mem_append.mp hmem).elim (hnone inner) (hnone' inner)

end

mutual

/-- Where there is nothing to splice, splicing changes nothing. -/
theorem Spliced.flatten : ∀ {e : Expr}, e.Spliced → e.flatten = e
  | atom _ _, _ => rfl
  | apply l op e, h =>
    have hoperand : e.Spliced := h
    congrArg (apply l op) hoperand.flatten
  | seq l _, h => congrArg (seq l) (h.1.spliceAll h.2)
  | choice l items, h =>
    have hitems : AllSpliced items := h
    congrArg (choice l) hitems.flattenAll

theorem AllSpliced.flattenAll : ∀ {es : List Expr}, AllSpliced es → flattenAll es = es
  | [], _ => rfl
  | _ :: _, h => congrArg₂ List.cons h.1.flatten h.2.flattenAll

theorem AllSpliced.spliceAll : ∀ {es : List Expr}, AllSpliced es → (∀ inner, seq none inner ∉ es) →
    spliceAll es = es
  | [], _, _ => rfl
  | e :: es, h, hnone => by
    have hpieces : e.pieces = [e] := by
      cases e with
      | seq l items =>
        cases l with
        | none => exact absurd List.mem_cons_self (hnone items)
        | some l => rfl
      | _ => rfl
    have hothers := h.2.spliceAll fun inner hmem => hnone inner (List.mem_cons_of_mem e hmem)
    rw [Expr.spliceAll, h.1.flatten, hpieces, hothers, List.singleton_append]

end

/-! ### Expressions that can be written -/

variable (T : Token → Prop)

/-- An atom whose class or name is that of a token with the given property. -/
def WritableAtom : Atom → Prop
  | .charClass c => T (.bracket c.source)
  | .rule name => T (.word name) ∧ isName name ∧ TokenKind.ofName? name = none
  | _ => True

/-- A label of a token with the given property, if there is one. -/
def WritableLabel (l : Option Bytes) : Prop := ∀ name ∈ l, T (.label name)

mutual

/-- An expression that can be written with tokens of the given property: sequences and choices have
at least two items. -/
def Writable : Expr → Prop
  | atom l a => WritableLabel T l ∧ WritableAtom T a
  | apply l _ e => WritableLabel T l ∧ Writable e
  | seq l items | choice l items => WritableLabel T l ∧ 2 ≤ items.length ∧ AllWritable items

def AllWritable : List Expr → Prop
  | [] => True
  | e :: es => Writable e ∧ AllWritable es

end

variable {T}

theorem allWritable_iff {es : List Expr} : AllWritable T es ↔ ∀ e ∈ es, e.Writable T := by
  induction es with
  | nil => simp [AllWritable]
  | cons e es ih => simp [AllWritable, ih]

theorem Writable.withLabel {e : Expr} (h : e.Writable T) {name : Bytes} (hname : T (.label name)) :
    (e.withLabel name).Writable T := by
  have hl : WritableLabel T (some name) := fun n hn => Option.some.inj hn ▸ hname
  cases e <;> exact ⟨hl, h.2⟩

theorem length_flattenAll (es : List Expr) : (flattenAll es).length = es.length := by
  induction es with
  | nil => rfl
  | cons e es ih => rw [flattenAll, List.length_cons, ih, List.length_cons]

mutual

theorem pieces_ne_nil : ∀ {e : Expr}, e.Writable T → e.flatten.pieces ≠ []
  | atom _ _, _ => List.cons_ne_nil _ _
  | apply _ _ _, _ => List.cons_ne_nil _ _
  | seq none items, h => by
    have hlength : 2 ≤ (spliceAll items).length := Nat.le_trans h.2.1 (length_le_spliceAll h.2.2)
    rw [flatten, pieces]
    exact List.ne_nil_of_length_pos (by omega)
  | seq (some _) _, _ => List.cons_ne_nil _ _
  | choice _ _, _ => List.cons_ne_nil _ _

theorem length_le_spliceAll :
    ∀ {es : List Expr}, AllWritable T es → es.length ≤ (spliceAll es).length
  | [], _ => Nat.zero_le _
  | e :: es, h => by
    have hpos := List.length_pos_iff.mpr (pieces_ne_nil h.1)
    have hle := length_le_spliceAll h.2
    rw [spliceAll, List.length_append, List.length_cons]
    omega

end

theorem spliceAll_ne_nil {es : List Expr} (h : AllWritable T es) (hne : es ≠ []) :
    spliceAll es ≠ [] := by
  have hpos := List.length_pos_iff.mpr hne
  exact List.ne_nil_of_length_pos (Nat.lt_of_lt_of_le hpos (length_le_spliceAll h))

/-! ### What splicing keeps -/

theorem texts_append (as bs : List Expr) : texts (as ++ bs) = texts as ++ texts bs := by
  induction as with
  | nil => rfl
  | cons a as ih => rw [List.cons_append, texts, texts, ih, List.cons_append]

theorem texts_ne_nil {es : List Expr} (h : es ≠ []) : texts es ≠ [] := by
  cases es with
  | nil => exact absurd rfl h
  | cons e es => exact List.cons_ne_nil _ _

theorem join_pieces (e : Expr) : Bytes.join [Byte.blank] (texts e.pieces) = e.text := by
  cases e with
  | seq l items =>
    cases l with
    | none => rw [pieces, text]
    | some l => rfl
  | _ => rfl

mutual

/-- Splicing does not show in the text. -/
theorem text_flatten : ∀ {e : Expr}, e.Writable T → e.flatten.text = e.text
  | atom _ _, _ => rfl
  | apply _ _ e, h => by rw [flatten, text, text, text_flatten h.2]
  | seq none items, h => by rw [flatten, text, text, join_spliceAll h.2.2]
  | seq (some l) items, h => by rw [flatten, text, text, join_spliceAll h.2.2]
  | choice l items, h => by rw [flatten, text, text, texts_flattenAll h.2.2]

theorem texts_flattenAll : ∀ {es : List Expr}, AllWritable T es → texts (flattenAll es) = texts es
  | [], _ => rfl
  | e :: es, h => by rw [flattenAll, texts, texts, text_flatten h.1, texts_flattenAll h.2]

theorem join_spliceAll : ∀ {es : List Expr}, AllWritable T es →
    Bytes.join [Byte.blank] (texts (spliceAll es)) = Bytes.join [Byte.blank] (texts es)
  | [], _ => rfl
  | e :: es, h => by
    have hfirst : Bytes.join [Byte.blank] (texts e.flatten.pieces) = e.text := by
      rw [join_pieces, text_flatten h.1]
    by_cases hes : es = []
    · subst hes
      rw [spliceAll, spliceAll, List.append_nil, hfirst]
      rfl
    · rw [spliceAll, texts_append, texts,
        Bytes.join_append (texts_ne_nil (pieces_ne_nil h.1))
          (texts_ne_nil (spliceAll_ne_nil h.2 hes)),
        Bytes.join_cons (texts_ne_nil hes), hfirst, join_spliceAll h.2]

end

theorem leading_pieces {e : Expr} (h : e.pieces ≠ []) (l : Option Bytes) (es : List Expr) :
    leading (seq l (e.pieces ++ es)) = leading e := by
  cases e with
  | seq l' items =>
    cases l' with
    | some l' => rfl
    | none =>
      cases items with
      | nil => exact absurd rfl h
      | cons i is => rfl
  | _ => rfl

mutual

/-- Splicing leaves the rules that an expression may begin with. -/
theorem leading_flatten : ∀ {e : Expr}, e.Writable T → e.flatten.leading = e.leading
  | atom _ _, _ => rfl
  | apply _ _ e, h => by rw [flatten, leading, leading, leading_flatten h.2]
  | seq _ [], h => absurd h.2.1 (by simp)
  | seq _ (e :: es), h => by
    rw [flatten, spliceAll, leading_pieces (pieces_ne_nil h.2.2.1), leading, leading_flatten h.2.2.1]
  | choice _ items, h => by rw [flatten, leading, leading, leadingAll_flattenAll h.2.2]

theorem leadingAll_flattenAll :
    ∀ {es : List Expr}, AllWritable T es → leadingAll (flattenAll es) = leadingAll es
  | [], _ => rfl
  | e :: es, h => by
    rw [flattenAll, leadingAll, leadingAll, leading_flatten h.1, leadingAll_flattenAll h.2]

end

end Expr

end Packrat
