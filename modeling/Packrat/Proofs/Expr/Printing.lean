import Packrat.Proofs.Expr.Phrases
import Packrat.Proofs.Expr.Splice
import Packrat.Proofs.Expr.Tokens

/-!
Reading what was printed.

The text of an expression spells its tokens (`Expr.spells_text`), and these tokens are a phrase
that stands for the expression with its sequences spliced (`Expr.phrase_tokens`).  So the text of an
expression that can be written is read as the spliced expression (`Expr.read_text`), and every
expression that was read can be written (`Expr.writable_of_read`).

Main statement (`Expr.read_text_of_read`): what was read, printed and read again is what was read with its
sequences spliced, and from then on nothing changes any more.
-/

namespace Packrat

/-! ### Texts without white space around them -/

namespace Bytes

/-- A text that neither begins nor ends with white space. -/
structure Tight (bs : Bytes) : Prop where
  head : ∃ b ∈ bs.head?, ¬ Byte.isSpace b
  last : ∃ b ∈ bs.getLast?, ¬ Byte.isSpace b

theorem Tight.ne_nil {bs : Bytes} (h : bs.Tight) : bs ≠ [] := by
  rintro rfl
  obtain ⟨b, hb, -⟩ := h.head
  cases hb

theorem Tight.append {as bs : Bytes} (ha : as.Tight) (hb : bs.Tight) (cs : Bytes) :
    (as ++ cs ++ bs).Tight := by
  obtain ⟨a, hhead, hnot⟩ := ha.head
  obtain ⟨b, hlast, hnot'⟩ := hb.last
  refine ⟨⟨a, ?_, hnot⟩, ⟨b, ?_, hnot'⟩⟩
  · rw [List.append_assoc, List.head?_append_of_ne_nil as ha.ne_nil]
    exact hhead
  · rw [List.getLast?_append_of_ne_nil _ hb.ne_nil]
    exact hlast

theorem tight_of_forall {bs : Bytes} (hne : bs ≠ []) (h : ∀ b ∈ bs, ¬ Byte.isSpace b) :
    bs.Tight :=
  ⟨⟨_, List.head?_eq_some_head hne, h _ (List.head_mem hne)⟩,
    ⟨_, List.getLast?_eq_some_getLast hne, h _ (List.getLast_mem hne)⟩⟩

theorem tight_singleton {b : UInt8} (h : ¬ Byte.isSpace b) : Tight [b] :=
  tight_of_forall (List.cons_ne_nil b []) fun _ hc => List.mem_singleton.mp hc ▸ h

theorem not_isBlank {b : UInt8} (h : ¬ Byte.isSpace b) : ¬ Byte.isBlank b := by
  intro hb
  simp only [Byte.isBlank, Bool.or_eq_true, beq_iff_eq] at hb
  rcases hb with ((rfl | rfl) | rfl) | rfl <;> exact h (by decide)

end Bytes

namespace Token

theorem not_isSpace_of_isWord {b : UInt8} (h : Byte.isWord b) : ¬ Byte.isSpace b := by
  simp only [Byte.isWord, Byte.isAlnum, Byte.isAlpha, Byte.isUpper, Byte.isLower, Byte.isDigit,
    Byte.isSpace, Byte.tab, Byte.cr, Byte.blank, Byte.underscore, Bool.or_eq_true,
    Bool.and_eq_true, decide_eq_true_eq, beq_iff_eq, UInt8.le_iff_toNat_le, ← UInt8.toNat_inj,
    UInt8.reduceToNat] at h ⊢
  omega

theorem Regular.tight {t : Token} (ht : t.Regular) : t.spelling.Tight := by
  cases t with
  | quoted q body =>
    have hq : ¬ Byte.isSpace q := by rcases ht.1 with rfl | rfl <;> decide
    exact (Bytes.tight_singleton hq).append (Bytes.tight_singleton hq) body
  | bracket body =>
    have hopen : Bytes.Tight [Byte.openBracket] := Bytes.tight_singleton (by decide)
    exact hopen.append (Bytes.tight_singleton (by decide)) body
  | label name =>
    have hat : Bytes.Tight [Byte.atSign] := Bytes.tight_singleton (by decide)
    exact hat.append (Bytes.tight_singleton (by decide)) name
  | word name => exact Bytes.tight_of_forall ht.1 fun b hb => not_isSpace_of_isWord (ht.2 b hb)
  | mark b =>
    have hmarks : (marks.all fun c => !Byte.isSpace c) = true := by decide
    have hb : ¬ Byte.isSpace b := by simpa using List.all_eq_true.mp hmarks b (isMark_iff.mp ht)
    exact Bytes.tight_singleton hb

/-! ### Spelled tokens -/

/-- Tokens written one after the other, with blanks where two of them would run into each other. -/
inductive Spells : Bytes → List Token → Prop
  | token {t : Token} : t.Regular → Spells t.spelling [t]
  | before {t : Token} {bs : Bytes} {ts : List Token} : t.Regular → t.MayPrecede bs →
      Spells bs ts → Spells (t.spelling ++ bs) (t :: ts)
  | behind {t : Token} {bs : Bytes} {ts : List Token} : Spells bs ts → t.Regular →
      Stops t.spelling → Spells (bs ++ t.spelling) (ts ++ [t])
  | apart {bs cs : Bytes} {ts us : List Token} : Spells bs ts → Spells cs us →
      Spells (bs ++ Byte.blank :: cs) (ts ++ us)

theorem Stops.append {bs cs : Bytes} (hb : Stops bs) (hc : Stops cs) : Stops (bs ++ cs) := by
  cases bs with
  | nil => exact hc
  | cons b bs => exact hb

theorem stops_cons {b : UInt8} (hb : ¬ Byte.isWord b) (bs : Bytes) : Stops (b :: bs) :=
  fun c hc => (show b = c from Option.some.inj hc) ▸ hb

theorem Stops.mayPrecede {rest : Bytes} (h : Stops rest) (t : Token) : t.MayPrecede rest := by
  cases t with
  | word name => exact h
  | _ => trivial

theorem MayPrecede.append {t : Token} {bs cs : Bytes} (h : t.MayPrecede bs) (hc : Stops cs) :
    t.MayPrecede (bs ++ cs) := by
  cases t with
  | word name => exact Stops.append h hc
  | _ => trivial

namespace Spells

theorem ne_nil {bs : Bytes} {ts : List Token} (h : Spells bs ts) : ts ≠ [] := by
  induction h with
  | token => simp
  | before => simp
  | behind => simp
  | apart _ _ ih => simp [ih]

/-- Spelled tokens are cut off again, in front of anything that does not go on with a word. -/
theorem cuts {bs : Bytes} {ts : List Token} (h : Spells bs ts) {rest : Bytes}
    (hrest : Stops rest) : Cuts (bs ++ rest) ts rest := by
  induction h generalizing rest with
  | @token t ht => exact .token ht (hrest.mayPrecede t)
  | before ht hbs _ ih =>
    rw [List.append_assoc]
    exact (Cuts.token ht (hbs.append hrest)).append (ih hrest)
  | @behind t _ _ _ ht hstops ih =>
    rw [List.append_assoc]
    exact (ih (hstops.append hrest)).append (.token ht (hrest.mayPrecede t))
  | @apart bs cs ts us _ h' ih ih' =>
    rw [List.append_assoc, List.cons_append]
    cases us with
    | nil => exact absurd rfl h'.ne_nil
    | cons u us => exact (ih (stops_cons (by decide) _)).append (ih' hrest).blank

theorem tight {bs : Bytes} {ts : List Token} (h : Spells bs ts) : bs.Tight := by
  induction h with
  | token ht => exact ht.tight
  | before ht _ _ ih => simpa using ht.tight.append ih []
  | behind _ ht _ ih => simpa using ih.append ht.tight []
  | apart _ _ ih ih' => simpa using ih.append ih' [Byte.blank]

/-- Between the tokens there are only blanks. -/
theorem mem {bs : Bytes} {ts : List Token} (h : Spells bs ts) {b : UInt8} (hb : b ∈ bs) :
    b = Byte.blank ∨ ∃ t ∈ ts, b ∈ t.spelling := by
  induction h with
  | @token t => exact .inr ⟨t, by simp, hb⟩
  | @before t bs ts _ _ _ ih =>
    rcases List.mem_append.mp hb with hb | hb
    · exact .inr ⟨t, by simp, hb⟩
    · exact (ih hb).imp_right fun ⟨u, hu, hbu⟩ => ⟨u, by simp [hu], hbu⟩
  | @behind t bs ts _ _ _ ih =>
    rcases List.mem_append.mp hb with hb | hb
    · exact (ih hb).imp_right fun ⟨u, hu, hbu⟩ => ⟨u, by simp [hu], hbu⟩
    · exact .inr ⟨t, by simp, hb⟩
  | apart _ _ ih ih' =>
    rcases List.mem_append.mp hb with hb | hb
    · exact (ih hb).imp_right fun ⟨u, hu, hbu⟩ => ⟨u, by simp [hu], hbu⟩
    · rcases List.mem_cons.mp hb with rfl | hb
      · exact .inl rfl
      · exact (ih' hb).imp_right fun ⟨u, hu, hbu⟩ => ⟨u, by simp [hu], hbu⟩

/-- Several spelled texts with blanks between them. -/
theorem join_blank {bss : List Bytes} {tss : List (List Token)} (h : List.Forall₂ Spells bss tss)
    (hne : bss ≠ []) : Spells (Bytes.join [Byte.blank] bss) tss.flatten := by
  induction h with
  | nil => exact absurd rfl hne
  | @cons bs ts bss tss hfirst hothers ih =>
    cases hothers with
    | nil => simpa [Bytes.join] using hfirst
    | cons hsecond hthird =>
      rw [Bytes.join_cons (List.cons_ne_nil _ _), List.append_assoc]
      exact hfirst.apart (ih (List.cons_ne_nil _ _))

/-- Several spelled texts with strokes between them. -/
theorem join_slash {bss : List Bytes} {tss : List (List Token)} (h : List.Forall₂ Spells bss tss)
    (hne : bss ≠ []) :
    Spells (Bytes.join (Bytes.ascii " / ") bss) (List.intercalate [mark Byte.slash] tss) := by
  induction h with
  | nil => exact absurd rfl hne
  | @cons bs ts bss tss hfirst hothers ih =>
    cases hothers with
    | nil => simpa [Bytes.join] using hfirst
    | cons hsecond hthird =>
      have hslash : Spells [Byte.slash] [mark Byte.slash] :=
        .token (t := mark Byte.slash) (show isMark Byte.slash by decide)
      rw [Bytes.join_cons (List.cons_ne_nil _ _), List.intercalate_cons_cons, List.append_assoc,
        List.append_assoc]
      exact hfirst.apart (hslash.apart (ih (List.cons_ne_nil _ _)))

end Spells

end Token

namespace Expr

/-! ### The tokens of an expression -/

/-- The token of an atom. -/
def atomToken : Atom → Token
  | .literal text => .quoted Byte.quote (escape text)
  | .charClass c => .bracket c.source
  | .anyByte => .mark Byte.dot
  | .rule name => .word name
  | .token kind => .word kind.name

def labelTokens (l : Option Bytes) : List Token := (l.map Token.label).toList

def parenTokens (ts : List Token) : List Token :=
  .mark Byte.openParen :: ts ++ [.mark Byte.closeParen]

/-- The tokens of an operator around those of its operand. -/
def operatorTokens : Operator → List Token → List Token
  | .star, ts => parenTokens ts ++ [.mark Byte.star]
  | .plus, ts => parenTokens ts ++ [.mark Byte.plus]
  | .option, ts => parenTokens ts ++ [.mark Byte.question]
  | .ahead, ts => .mark Byte.ampersand :: parenTokens ts
  | .notAhead, ts => .mark Byte.bang :: parenTokens ts

mutual

/-- The tokens that the text of an expression is made of. -/
def tokens : Expr → List Token
  | atom l a => labelTokens l ++ [atomToken a]
  | apply l op e => labelTokens l ++ operatorTokens op (tokens e)
  | seq none items => (tokenLists items).flatten
  | seq (some l) items => labelTokens (some l) ++ parenTokens (tokenLists items).flatten
  | choice l items =>
    labelTokens l ++ parenTokens (List.intercalate [.mark Byte.slash] (tokenLists items))

def tokenLists : List Expr → List (List Token)
  | [] => []
  | e :: es => tokens e :: tokenLists es

end

variable {T : Token → Prop}

/-- A property of every token that is written of itself, without having been read. -/
structure Admits (T : Token → Prop) : Prop where
  literal : ∀ text, T (.quoted Byte.quote (escape text))
  mark : ∀ b ∈ Token.marks, T (.mark b)
  kind : ∀ kind : TokenKind, T (.word kind.name)

theorem admits_atomToken (hT : Admits T) {a : Atom} (h : WritableAtom T a) : T (atomToken a) := by
  cases a with
  | literal text => exact hT.literal text
  | charClass c => exact h
  | anyByte => exact hT.mark _ (by decide)
  | rule name => exact h.1
  | token kind => exact hT.kind kind

theorem admits_parenTokens (hT : Admits T) {ts : List Token} (h : ∀ t ∈ ts, T t) :
    ∀ t ∈ parenTokens ts, T t := by
  simpa [parenTokens, or_imp, forall_and] using
    ⟨hT.mark Byte.openParen (by decide), h, hT.mark Byte.closeParen (by decide)⟩

theorem admits_operatorTokens (hT : Admits T) (op : Operator) {ts : List Token}
    (h : ∀ t ∈ ts, T t) : ∀ t ∈ operatorTokens op ts, T t := by
  have hparens := admits_parenTokens hT h
  cases op with
  | star => exact List.forall_mem_append.mpr ⟨hparens, by simpa using hT.mark _ (by decide)⟩
  | plus => exact List.forall_mem_append.mpr ⟨hparens, by simpa using hT.mark _ (by decide)⟩
  | option => exact List.forall_mem_append.mpr ⟨hparens, by simpa using hT.mark _ (by decide)⟩
  | ahead => exact List.forall_mem_cons.mpr ⟨hT.mark _ (by decide), hparens⟩
  | notAhead => exact List.forall_mem_cons.mpr ⟨hT.mark _ (by decide), hparens⟩

theorem admits_label {l : Option Bytes} (hl : WritableLabel T l) {ts : List Token}
    (h : ∀ t ∈ ts, T t) : ∀ t ∈ labelTokens l ++ ts, T t := by
  cases l with
  | none => exact h
  | some name => exact List.forall_mem_cons.mpr ⟨hl name rfl, h⟩

theorem admits_intercalate {t : Token} (ht : T t) {tss : List (List Token)}
    (h : ∀ ts ∈ tss, ∀ t ∈ ts, T t) : ∀ u ∈ List.intercalate [t] tss, T u := by
  induction tss with
  | nil => exact fun _ hu => absurd hu (by simp)
  | cons ts tss ih =>
    cases tss with
    | nil => simpa using h
    | cons us tss =>
      rw [List.intercalate_cons_cons, List.append_assoc]
      obtain ⟨hts, htss⟩ := List.forall_mem_cons.mp h
      exact List.forall_mem_append.mpr ⟨hts, List.forall_mem_cons.mpr ⟨ht, ih htss⟩⟩

mutual

/-- The tokens of an expression have the property of those that it can be written with. -/
theorem admits_tokens (hT : Admits T) : ∀ {e : Expr}, e.Writable T → ∀ t ∈ e.tokens, T t
  | atom l a, h => admits_label h.1 (by simpa using admits_atomToken hT h.2)
  | apply l op e, h => admits_label h.1 (admits_operatorTokens hT op (admits_tokens hT h.2))
  | seq none items, h => List.forall_mem_flatten.mpr (admits_tokenLists hT h.2.2)
  | seq (some l) items, h =>
    admits_label h.1
      (admits_parenTokens hT (List.forall_mem_flatten.mpr (admits_tokenLists hT h.2.2)))
  | choice l items, h =>
    admits_label h.1 (admits_parenTokens hT
      (admits_intercalate (hT.mark _ (by decide)) (admits_tokenLists hT h.2.2)))

theorem admits_tokenLists (hT : Admits T) :
    ∀ {es : List Expr}, AllWritable T es → ∀ ts ∈ tokenLists es, ∀ t ∈ ts, T t
  | [], _ => fun _ hts => absurd hts (by simp [tokenLists])
  | e :: es, h => List.forall_mem_cons.mpr ⟨admits_tokens hT h.1, admits_tokenLists hT h.2⟩

end

/-! ### The text spells the tokens -/

theorem closes_escape (text : Bytes) : Token.Closes Byte.quote (escape text) := by
  induction text with
  | nil => exact Token.closes_nil (by decide)
  | cons b text ih =>
    rw [escape, List.flatMap_cons, ← escape, escapeByte]
    split
    · exact ih.escaped _
    split
    · exact ih.escaped _
    split
    · exact ih.escaped _
    split
    · exact ih.escaped _
    split
    · exact ih.escaped _
    · next hslash hquote _ _ _ => exact ih.cons (by simpa using hslash) (by simpa using hquote)

theorem regular_kind (kind : TokenKind) : (Token.word kind.name).Regular := by
  have hword : kind.name.all Byte.isWord = true := by cases kind <;> decide
  exact ⟨by cases kind <;> decide, List.all_eq_true.mp hword⟩

theorem regular_mark {b : UInt8} (h : b ∈ Token.marks) : (Token.mark b).Regular :=
  Token.isMark_iff.mpr h

theorem regular_atomToken (hT : ∀ t, T t → t.Regular) {a : Atom} (h : WritableAtom T a) :
    (atomToken a).Regular := by
  cases a with
  | literal text => exact ⟨.inl rfl, closes_escape text⟩
  | charClass c => exact hT _ h
  | anyByte => exact regular_mark (by decide)
  | rule name => exact hT _ h.1
  | token kind => exact regular_kind kind

theorem atomText_eq (a : Atom) : atomText a = (atomToken a).spelling := by
  cases a <;> rfl

open Token (Spells)

theorem spells_label (hT : ∀ t, T t → t.Regular) {l : Option Bytes} (hl : WritableLabel T l)
    {bs : Bytes} {ts : List Token} (h : Spells bs ts) :
    Spells (labelText l ++ bs) (labelTokens l ++ ts) := by
  cases l with
  | none => exact h
  | some name => exact .before (hT _ (hl name rfl)) trivial h

theorem spells_parens {bs : Bytes} {ts : List Token} (h : Spells bs ts) :
    Spells (inParens bs) (parenTokens ts) :=
  .before (t := .mark Byte.openParen) (regular_mark (by decide)) trivial
    (.behind (t := .mark Byte.closeParen) h (regular_mark (by decide))
      (Token.stops_cons (by decide) []))

theorem spells_operator (op : Operator) {bs : Bytes} {ts : List Token} (h : Spells bs ts) :
    Spells (operatorText op bs) (operatorTokens op ts) := by
  have hparens := spells_parens h
  cases op with
  | star =>
    exact .behind (t := .mark Byte.star) hparens (regular_mark (by decide))
      (Token.stops_cons (by decide) [])
  | plus =>
    exact .behind (t := .mark Byte.plus) hparens (regular_mark (by decide))
      (Token.stops_cons (by decide) [])
  | option =>
    exact .behind (t := .mark Byte.question) hparens (regular_mark (by decide))
      (Token.stops_cons (by decide) [])
  | ahead => exact .before (t := .mark Byte.ampersand) (regular_mark (by decide)) trivial hparens
  | notAhead => exact .before (t := .mark Byte.bang) (regular_mark (by decide)) trivial hparens

theorem ne_nil_of_two_le {items : List Expr} (h : 2 ≤ items.length) : items ≠ [] :=
  List.ne_nil_of_length_pos (Nat.lt_of_lt_of_le (by decide) h)

mutual

/-- The text of an expression spells its tokens. -/
theorem spells_text (hT : ∀ t, T t → t.Regular) :
    ∀ {e : Expr}, e.Writable T → Spells e.text e.tokens
  | atom l a, h => by
    rw [text, tokens, atomText_eq]
    exact spells_label hT h.1 (.token (regular_atomToken hT h.2))
  | apply l op e, h => by
    rw [text, tokens]
    exact spells_label hT h.1 (spells_operator op (spells_text hT h.2))
  | seq none items, h => by
    rw [text, tokens]
    exact .join_blank (spells_texts hT h.2.2) (texts_ne_nil (ne_nil_of_two_le h.2.1))
  | seq (some l) items, h => by
    rw [text, tokens]
    exact spells_label hT h.1 (spells_parens
      (.join_blank (spells_texts hT h.2.2) (texts_ne_nil (ne_nil_of_two_le h.2.1))))
  | choice l items, h => by
    rw [text, tokens]
    exact spells_label hT h.1 (spells_parens
      (.join_slash (spells_texts hT h.2.2) (texts_ne_nil (ne_nil_of_two_le h.2.1))))

theorem spells_texts (hT : ∀ t, T t → t.Regular) :
    ∀ {es : List Expr}, AllWritable T es → List.Forall₂ Spells (texts es) (tokenLists es)
  | [], _ => .nil
  | _ :: _, h => .cons (spells_text hT h.1) (spells_texts hT h.2)

end

/-! ### The tokens are a phrase -/

theorem unescape_escaped (b : UInt8) (bs : Bytes) :
    unescape (Byte.backslash :: b :: bs)
      = if b == 'n'.toUInt8 then Byte.newline :: unescape bs
        else if b == 't'.toUInt8 then Byte.tab :: unescape bs
        else if b == 'r'.toUInt8 then Byte.cr :: unescape bs
        else if b == Byte.backslash || b == Byte.quote || b == Byte.doubleQuote then
          b :: unescape bs
        else Byte.backslash :: b :: unescape bs :=
  unescape.eq_2 b bs

theorem unescape_cons {b : UInt8} (hb : b ≠ Byte.backslash) (bs : Bytes) :
    unescape (b :: bs) = b :: unescape bs :=
  unescape.eq_3 b bs fun _ _ h => absurd h hb

/-- Escapes stand for what they were written for. -/
theorem unescape_escape (text : Bytes) : unescape (escape text) = text := by
  induction text with
  | nil => rfl
  | cons b text ih =>
    rw [escape, List.flatMap_cons, ← escape, escapeByte]
    split
    · next hb =>
      obtain rfl : b = Byte.backslash := by simpa using hb
      exact (unescape_escaped _ _).trans (congrArg (_ :: ·) ih)
    split
    · next hb =>
      obtain rfl : b = Byte.quote := by simpa using hb
      exact (unescape_escaped _ _).trans (congrArg (_ :: ·) ih)
    split
    · next hb =>
      obtain rfl : b = Byte.newline := by simpa using hb
      exact (unescape_escaped _ _).trans (congrArg (_ :: ·) ih)
    split
    · next hb =>
      obtain rfl : b = Byte.tab := by simpa using hb
      exact (unescape_escaped _ _).trans (congrArg (_ :: ·) ih)
    split
    · next hb =>
      obtain rfl : b = Byte.cr := by simpa using hb
      exact (unescape_escaped _ _).trans (congrArg (_ :: ·) ih)
    · next hb _ _ _ _ =>
      exact (unescape_cons (by simpa using hb) _).trans (congrArg (_ :: ·) ih)

/-! ### The tokens are a phrase -/

theorem classOf_source (c : CharClass) : classOf c.source = .ok (atom none (.charClass c)) := by
  have hc : CharClass.ofSource? c.source = some c := by
    unfold CharClass.ofSource?
    split
    · next regex hregex => exact congrArg some (CharClass.ext_source rfl)
    · next hnone => exact absurd (hnone.symm.trans c.regex_eq) (by simp)
  rw [classOf, hc]

theorem ofWord_kind (kind : TokenKind) :
    isName kind.name ∧ ofWord kind.name = atom none (.token kind) := by
  cases kind <;> exact ⟨by decide, by rfl⟩

theorem phrase_atom {a : Atom} (h : WritableAtom T a) :
    Phrase .atom [atomToken a] [atom none a] := by
  cases a with
  | literal text =>
    have hliteral := Phrase.literal Byte.quote (escape text)
    rwa [unescape_escape] at hliteral
  | charClass c => exact .charClass (classOf_source c)
  | anyByte => exact .anyByte
  | rule name =>
    have hword : ofWord name = atom none (.rule name) := by rw [ofWord, h.2.2]
    exact hword ▸ .word h.2.1
  | token kind =>
    obtain ⟨hname, hword⟩ := ofWord_kind kind
    exact hword ▸ .word hname

/-- An expression with a label, if there is one. -/
def labelled : Option Bytes → Expr → Expr
  | none, e => e
  | some name, e => e.withLabel name

theorem phrase_label (l : Option Bytes) {ts : List Token} {e : Expr} (h : Phrase .item ts [e]) :
    Phrase .item (labelTokens l ++ ts) [labelled l e] := by
  cases l with
  | none => exact h
  | some name => exact .labelled name h

theorem phrase_parens {ts : List Token} {e : Expr} (h : Phrase .choice ts [e]) :
    Phrase .atom (parenTokens ts) [e] :=
  .parens h

theorem phrase_operator (op : Operator) {ts : List Token} {e : Expr} (h : Phrase .choice ts [e]) :
    Phrase .item (operatorTokens op ts) [apply none op e] := by
  have hparens := phrase_parens h
  cases op with
  | star => exact .bare (.repeated hparens rfl)
  | plus => exact .bare (.repeated hparens rfl)
  | option => exact .bare (.repeated hparens rfl)
  | ahead => exact .lookahead rfl (.once hparens)
  | notAhead => exact .lookahead rfl (.once hparens)

theorem Phrase.append {part : Part} {ts us : List Token} {es fs : List Expr}
    (h : Phrase part ts es) (hpart : part = .items) (h' : Phrase .items us fs) :
    Phrase .items (ts ++ us) (es ++ fs) := by
  induction h with
  | nothing => exact h'
  | more hitem _ _ ih =>
    rw [List.append_assoc]
    exact .more hitem (ih rfl)
  | _ => cases hpart

/-- An item on its own. -/
theorem Phrase.alone {ts : List Token} {e : Expr} (h : Phrase .item ts [e]) :
    Phrase .items ts [e] := by
  simpa using h.more .nothing

theorem sequence_eq {es : List Expr} (h : 2 ≤ es.length) : sequence es = seq none es := by
  cases es with
  | nil => simp at h
  | cons e es =>
    cases es with
    | nil => simp at h
    | cons e' es => rfl

theorem alternatives_eq {es : List Expr} (h : 2 ≤ es.length) :
    alternatives es = choice none es := by
  cases es with
  | nil => simp at h
  | cons e es =>
    cases es with
    | nil => simp at h
    | cons e' es => rfl

theorem group_eq {es : List Expr} (h : 2 ≤ es.length) : group es = seq none es := by
  rw [group, if_neg (by simp [ne_nil_of_two_le h]), sequence_eq h]

theorem group_pieces {e : Expr} (h : e.Writable T) : group e.flatten.pieces = e.flatten := by
  cases e with
  | seq l items =>
    cases l with
    | none => exact group_eq (Nat.le_trans h.2.1 (length_le_spliceAll h.2.2))
    | some l => rfl
  | _ => rfl

mutual

/-- The tokens of an expression stand for the expression with its sequences spliced. -/
theorem phrase_tokens : ∀ {e : Expr}, e.Writable T → Phrase .items e.tokens e.flatten.pieces
  | atom l a, h => by
    have hatom := phrase_label l (.bare (.once (phrase_atom h.2)))
    cases l <;> exact hatom.alone
  | apply l op e, h => by
    have hoperand : Phrase .choice e.tokens [e.flatten] :=
      group_pieces h.2 ▸ .single (phrase_tokens h.2)
    have happly := phrase_label l (phrase_operator op hoperand)
    cases l <;> exact happly.alone
  | seq none items, h => phrase_flatten h.2.2
  | seq (some l) items, h => by
    have hitems := Phrase.single (phrase_flatten h.2.2)
    rw [group_eq (Nat.le_trans h.2.1 (length_le_spliceAll h.2.2))] at hitems
    exact (phrase_label (some l) (.bare (.once (phrase_parens hitems)))).alone
  | choice l items, h => by
    have hitems := Phrase.parens (phrase_intercalate h.2.2 (ne_nil_of_two_le h.2.1))
    rw [alternatives_eq (Nat.le_trans h.2.1 (length_flattenAll items).ge)] at hitems
    have hchoice := phrase_label l (.bare (.once hitems))
    cases l <;> exact hchoice.alone

theorem phrase_flatten : ∀ {es : List Expr}, AllWritable T es →
    Phrase .items (tokenLists es).flatten (spliceAll es)
  | [], _ => .nothing
  | e :: es, h => by
    rw [tokenLists, List.flatten_cons, spliceAll]
    exact (phrase_tokens h.1).append rfl (phrase_flatten h.2)

theorem phrase_intercalate : ∀ {es : List Expr}, AllWritable T es → es ≠ [] →
    Phrase .choice (List.intercalate [.mark Byte.slash] (tokenLists es)) (flattenAll es)
  | [], _, hne => absurd rfl hne
  | [e], h, _ => by
    have hsingle := Phrase.single (phrase_tokens h.1)
    rw [group_pieces h.1] at hsingle
    simpa [tokenLists, flattenAll] using hsingle
  | e :: e' :: es, h, _ => by
    have hfurther :=
      (phrase_tokens h.1).further (phrase_intercalate h.2 (List.cons_ne_nil e' es))
    rw [group_pieces h.1] at hfurther
    rw [tokenLists, tokenLists, List.intercalate_cons_cons, ← tokenLists, List.append_assoc]
    exact hfurther

end

/-! ### The round trip -/

/-- The text of an expression that can be written is read as the expression with its sequences
spliced. -/
theorem read_text (hT : ∀ t, T t → t.Regular) {e : Expr} (h : e.Writable T) :
    read e.text = .ok e.flatten := by
  have hstops : Token.Stops [] := fun _ hb => absurd hb (by simp)
  have hcuts := (spells_text hT h).cuts hstops
  rw [List.append_nil] at hcuts
  obtain ⟨htokens, hfault⟩ := hcuts.lex rfl
  have hphrase := Phrase.single (phrase_tokens h)
  rw [group_pieces h] at hphrase
  exact readInput_of_phrase hphrase ⟨htokens, hfault⟩

/-! ### What is read can be written -/

theorem writable_atom {a : Atom} (h : WritableAtom T a) : (atom none a).Writable T :=
  ⟨fun _ hn => absurd hn (by simp), h⟩

theorem writable_apply (op : Operator) {e : Expr} (h : e.Writable T) :
    (apply none op e).Writable T :=
  ⟨fun _ hn => absurd hn (by simp), h⟩

theorem writable_group {es : List Expr} (h : ∀ e ∈ es, e.Writable T) : (group es).Writable T := by
  cases es with
  | nil => exact writable_atom trivial
  | cons e es =>
    cases es with
    | nil => exact h e (by simp)
    | cons e' es => exact ⟨fun _ hn => absurd hn (by simp), by simp, allWritable_iff.mpr h⟩

theorem writable_alternatives {es : List Expr} (hne : es ≠ []) (h : ∀ e ∈ es, e.Writable T) :
    (alternatives es).Writable T := by
  cases es with
  | nil => exact absurd rfl hne
  | cons e es =>
    cases es with
    | nil => exact h e (by simp)
    | cons e' es => exact ⟨fun _ hn => absurd hn (by simp), by simp, allWritable_iff.mpr h⟩

theorem writable_classOf {body : Bytes} {e : Expr} (h : classOf body = .ok e)
    (hT : T (.bracket body)) : e.Writable T := by
  unfold classOf at h
  split at h
  · next c hc =>
    obtain rfl := Except.ok.inj h
    have hsource : c.source = body := by
      unfold CharClass.ofSource? at hc
      split at hc
      · exact (congrArg CharClass.source (Option.some.inj hc)).symm
      · cases hc
    exact writable_atom (show T (.bracket c.source) from hsource.symm ▸ hT)
  · cases h

theorem writable_ofWord {name : Bytes} (h : isName name) (hT : T (.word name)) :
    (ofWord name).Writable T := by
  unfold ofWord
  split
  · exact writable_atom trivial
  · next hnone => exact writable_atom ⟨hT, h, hnone⟩

theorem Phrase.ne_nil {part : Part} {ts : List Token} {es : List Expr} (h : Phrase part ts es)
    (hpart : part ≠ .items) : es ≠ [] := by
  induction h with
  | once _ ih => exact ih (by simp)
  | bare _ ih => exact ih (by simp)
  | nothing => exact absurd rfl hpart
  | _ => exact List.cons_ne_nil _ _

/-- What a phrase stands for can be written with the tokens of the phrase. -/
theorem Phrase.writable {part : Part} {ts : List Token} {es : List Expr} (h : Phrase part ts es)
    (hT : ∀ t ∈ ts, T t) : ∀ e ∈ es, e.Writable T := by
  induction h with
  | literal quote body =>
    intro e he
    rw [List.mem_singleton.mp he]
    exact writable_atom trivial
  | charClass hclass => simpa using writable_classOf hclass (hT _ (by simp))
  | word hname => simpa using writable_ofWord hname (hT _ (by simp))
  | anyByte =>
    intro e he
    rw [List.mem_singleton.mp he]
    exact writable_atom trivial
  | parens hp ih =>
    simpa using writable_alternatives (hp.ne_nil (by simp)) (ih fun t ht => hT t (by simp [ht]))
  | once _ ih => exact ih hT
  | @repeated _ _ op e _ _ ih =>
    simpa using writable_apply op (ih (fun t ht => hT t (by simp [ht])) e (by simp))
  | bare _ ih => exact ih hT
  | @lookahead _ _ _ op e _ _ ih =>
    simpa using writable_apply op (ih (fun t ht => hT t (by simp [ht])) e (by simp))
  | @labelled _ e name _ ih =>
    simpa using (ih (fun t ht => hT t (by simp [ht])) e (by simp)).withLabel (hT _ (by simp))
  | nothing => exact fun e he => absurd he (by simp)
  | more _ _ ih ih' =>
    intro e he
    rcases List.mem_cons.mp he with rfl | he
    · exact ih (fun t ht => hT t (by simp [ht])) e (by simp)
    · exact ih' (fun t ht => hT t (by simp [ht])) e he
  | single _ ih => simpa using writable_group (ih hT)
  | further _ _ ih ih' =>
    intro e he
    rcases List.mem_cons.mp he with rfl | he
    · exact writable_group (ih fun t ht => hT t (by simp [ht]))
    · exact ih' (fun t ht => hT t (by simp [ht])) e he

/-- What is read can be written with the tokens it was read from. -/
theorem writable_of_read {source : Bytes} {e : Expr} (h : read source = .ok e)
    (hT : ∀ t ∈ (Token.lex source).tokens.map (·.1), T t) : e.Writable T := by
  obtain ⟨-, es, hphrase, rfl⟩ := phrase_of_readInput h
  exact writable_alternatives (hphrase.ne_nil (by simp)) (hphrase.writable hT)

/-- **Reading undoes printing up to splicing.** The text of an expression that was read is read as the
expression with its sequences spliced.  No sequence is left to be spliced in it, it is the expression
itself if there was none before, and it has the same text again. -/
theorem read_text_of_read {source : Bytes} {e : Expr} (h : read source = .ok e) :
    read e.text = .ok e.flatten ∧ e.flatten.Spliced ∧ (e.Spliced → e.flatten = e)
      ∧ e.flatten.text = e.text := by
  have hwritable : e.Writable Token.Regular :=
    writable_of_read h fun _ ht => (Token.of_mem_lexFrom ht).1
  exact ⟨read_text (fun _ ht => ht) hwritable, spliced_flatten e, Spliced.flatten, text_flatten hwritable⟩

/-- The pattern `a (b (c 'it\'s')) @l:(d e)*`. -/
def groupedPattern : Expr :=
  let word (name : String) : Expr := atom none (.rule (Bytes.ascii name))
  .seq none [word "a",
    .seq none [word "b", .seq none [word "c", .literal (Bytes.ascii "it's")]],
    .apply (some (Bytes.ascii "l")) .star (.seq none [word "d", word "e"])]

/-- The sequences in brackets are spliced, the labelled repetition stays. -/
theorem read_text_grouped :
    read (Bytes.ascii "a (b (c 'it\\'s')) @l:(d e)*") = .ok groupedPattern
      ∧ groupedPattern.text = Bytes.ascii "a b c 'it\\'s' @l:(d e)*"
      ∧ read groupedPattern.text = .ok groupedPattern.flatten
      ∧ groupedPattern.flatten.Spliced
      ∧ groupedPattern.flatten.text = groupedPattern.text := by
  have hread : read (Bytes.ascii "a (b (c 'it\\'s')) @l:(d e)*") = .ok groupedPattern := by rfl
  obtain ⟨htext, hspliced, -, hagain⟩ := read_text_of_read hread
  exact ⟨hread, by decide, htext, hspliced, hagain⟩

end Expr

end Packrat
