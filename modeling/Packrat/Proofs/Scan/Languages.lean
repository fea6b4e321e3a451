import Packrat.Proofs.Scan.Locality
import Mathlib.Computability.Language
import Mathlib.Order.Bounds.Basic
import Mathlib.Order.Interval.Set.Basic

/-!
The languages of tokens.

A number, an identifier and a quoted text are words of a regular language, and the scanners find them
in the text: the longest number and the longest identifier that begin at an offset, and the only quoted
text that does.

A language is held against a text through the offsets at which a word that begins at `o` can end
(`Text.ends`).  A number is scanned part by part, each as far as it goes.  That this finds the longest one
rests on what stands behind a part that is cut short: it is a byte that the next part cannot begin with
(`Text.isGreatest_ends_mul`).  A quoted text needs no such choice, for no byte that may stand between the
quotes is the closing one (`Scan.closingQuote_eq_some_iff`).

Main statements: `Scan.number_longest`, `Scan.identifier_longest`, `Scan.quoted_only`.
-/

-- named outside of `Packrat`, where a language is what a configuration describes
/-- Sets of byte strings, with union, concatenation and iteration. -/
abbrev ByteLanguage : Type := Language UInt8

namespace Packrat

open scoped Computability

/-! ### Languages -/

/-- The words of one byte that has a property. -/
def byteOf (p : UInt8 → Prop) : ByteLanguage := {w | ∃ b, p b ∧ w = [b]}

namespace Byte

/-- The byte is one of the characters from `first` to `last`. -/
def Between (first last : Char) (b : UInt8) : Prop := first.toNat ≤ b.toNat ∧ b.toNat ≤ last.toNat

theorem isDigit_iff (b : UInt8) : isDigit b = true ↔ Between '0' '9' b := by
  simp [isDigit, Between, UInt8.le_iff_toNat_le]

theorem isAlpha_iff (b : UInt8) : isAlpha b = true ↔ Between 'A' 'Z' b ∨ Between 'a' 'z' b := by
  simp [isAlpha, isUpper, isLower, Between, UInt8.le_iff_toNat_le]

end Byte

namespace Scan

open Byte

/-- One digit or more: `[0-9]+`. -/
def digits : ByteLanguage := byteOf (Between '0' '9') * (byteOf (Between '0' '9'))∗

/-- A point and digits: `\.[0-9]+`. -/
def fractions : ByteLanguage := byteOf (· = dot) * digits

/-- An exponent with its mark, and a sign at will: `[eE][+-]?[0-9]+`. -/
def exponents : ByteLanguage :=
  byteOf (fun b => b = 'e'.toUInt8 ∨ b = 'E'.toUInt8)
    * ((1 + byteOf fun b => b = plus ∨ b = minus) * digits)

/-- Numbers, with a fraction and an exponent at will: `[0-9]+(\.[0-9]+)?([eE][+-]?[0-9]+)?`. -/
def numbers : ByteLanguage := digits * (1 + fractions) * (1 + exponents)

/-- Identifiers: `[A-Za-z_][A-Za-z0-9_]*`. -/
def identifiers : ByteLanguage :=
  byteOf (fun b => Between 'A' 'Z' b ∨ Between 'a' 'z' b ∨ b = underscore)
    * (byteOf fun b => Between 'A' 'Z' b ∨ Between 'a' 'z' b ∨ Between '0' '9' b ∨ b = underscore)∗

/-- What stands between two quotes: a backslash with any byte behind it, or a byte that is neither the
quote nor a backslash. -/
def protectedBytes (quote : UInt8) : ByteLanguage :=
  byteOf (· = backslash) * byteOf (fun _ => True) + byteOf fun b => b ≠ quote ∧ b ≠ backslash

/-- Texts in quotes of one kind. -/
def quotedBy (quote : UInt8) : ByteLanguage :=
  byteOf (· = quote) * ((protectedBytes quote)∗ * byteOf (· = quote))

/-- Texts in single or double quotes. -/
def quotedTexts : ByteLanguage := quotedBy Byte.quote + quotedBy doubleQuote

end Scan

/-! ### Languages in a text -/

namespace Text

variable {t : Text} {L M : ByteLanguage} {p : UInt8 → Prop} {inside : UInt8 → Bool} {o m stop : Nat}

/-- The offsets at which a word of the language that begins at `o` ends. -/
def ends (t : Text) (L : ByteLanguage) (o : Nat) : Set Nat :=
  {stop | o ≤ stop ∧ stop ≤ t.size ∧ t.slice o stop ∈ L}

theorem slice_eq_take_drop (t : Text) (o stop : Nat) :
    t.slice o stop = (t.toList.drop o).take (stop - o) := by
  rw [slice, Array.toList_extract, List.extract_eq_take_drop]

theorem slice_append_slice (h₁ : o ≤ m) (h₂ : m ≤ stop) :
    t.slice o m ++ t.slice m stop = t.slice o stop := by
  simp only [slice_eq_take_drop]
  rw [show t.toList.drop m = (t.toList.drop o).drop (m - o) by
      rw [List.drop_drop]; congr 1; omega,
    show stop - o = (m - o) + (stop - m) by omega, List.take_add]

theorem length_slice (h : stop ≤ t.size) : (t.slice o stop).length = stop - o := by
  rw [slice, Array.length_toList, Array.size_extract]
  omega

/-- A stretch of one byte. -/
theorem slice_eq_singleton_iff {b : UInt8} (h₁ : o ≤ stop) (h₂ : stop ≤ t.size) :
    t.slice o stop = [b] ↔ stop = o + 1 ∧ t[o]? = some b := by
  have hlen := length_slice (o := o) h₂
  constructor
  · intro h
    rw [h, List.length_singleton] at hlen
    obtain rfl : stop = o + 1 := by omega
    rw [slice_eq_take_drop, Nat.add_sub_cancel_left, List.take_one, List.head?_drop,
      Array.getElem?_toList] at h
    exact ⟨rfl, by simpa using h⟩
  · rintro ⟨rfl, hb⟩
    rw [slice_eq_take_drop, Nat.add_sub_cancel_left, List.take_one, List.head?_drop,
      Array.getElem?_toList, hb]
    rfl

theorem mem_ends_one : stop ∈ t.ends 1 o ↔ stop = o ∧ o ≤ t.size := by
  constructor
  · rintro ⟨hle, hsize, hnil⟩
    have hlen := length_slice (o := o) hsize
    rw [(Language.mem_one _).1 hnil, List.length_nil] at hlen
    omega
  · rintro ⟨rfl, hsize⟩
    refine ⟨Nat.le_refl _, hsize, (Language.mem_one _).2 ?_⟩
    rw [slice_eq_take_drop, Nat.sub_self, List.take_zero]

theorem mem_ends_byteOf : stop ∈ t.ends (byteOf p) o ↔ stop = o + 1 ∧ ∃ b, t[o]? = some b ∧ p b := by
  constructor
  · rintro ⟨hle, hsize, b, hb, hslice⟩
    obtain ⟨rfl, hget⟩ := (slice_eq_singleton_iff hle hsize).1 hslice
    exact ⟨rfl, b, hget, hb⟩
  · rintro ⟨rfl, b, hget, hb⟩
    have hsize : o + 1 ≤ t.size := (Array.getElem?_eq_some_iff.1 hget).1
    exact ⟨Nat.le_succ o, hsize, b, hb, (slice_eq_singleton_iff (Nat.le_succ o) hsize).2 ⟨rfl, hget⟩⟩

theorem mem_ends_add : stop ∈ t.ends (L + M) o ↔ stop ∈ t.ends L o ∨ stop ∈ t.ends M o := by
  constructor
  · rintro ⟨h₁, h₂, h | h⟩
    · exact .inl ⟨h₁, h₂, h⟩
    · exact .inr ⟨h₁, h₂, h⟩
  · rintro (⟨h₁, h₂, h⟩ | ⟨h₁, h₂, h⟩)
    · exact ⟨h₁, h₂, .inl h⟩
    · exact ⟨h₁, h₂, .inr h⟩

theorem mem_ends_mul : stop ∈ t.ends (L * M) o ↔ ∃ m ∈ t.ends L o, stop ∈ t.ends M m := by
  constructor
  · rintro ⟨hle, hsize, a, ha, b, hb, hab⟩
    have hlen := length_slice (o := o) hsize
    have hab : t.slice o stop = a ++ b := hab.symm
    rw [hab, List.length_append] at hlen
    have hfirst := length_slice (t := t) (o := o) (show o + a.length ≤ t.size by omega)
    have hsplit := slice_append_slice (t := t) (Nat.le_add_right o a.length)
      (show o + a.length ≤ stop by omega)
    obtain ⟨h₁, h₂⟩ := List.append_inj (hsplit.trans hab) (by omega)
    rw [← h₁] at ha
    rw [← h₂] at hb
    refine ⟨_, ⟨?_, ?_, ha⟩, ?_, hsize, hb⟩ <;> omega
  · rintro ⟨m, ⟨hom, -, ha⟩, hms, hsize, hb⟩
    refine ⟨Nat.le_trans hom hms, hsize, ?_⟩
    rw [← slice_append_slice hom hms]
    exact Language.append_mem_mul ha hb

theorem mem_ends_kstar :
    stop ∈ t.ends L∗ o ↔ (stop = o ∧ o ≤ t.size) ∨ stop ∈ t.ends (L * L∗) o := by
  rw [← mem_ends_one, ← mem_ends_add, Language.one_add_self_mul_kstar_eq_kstar]

/-- A word whose first byte is of a class. -/
theorem mem_ends_byteOf_mul : stop ∈ t.ends (byteOf p * L) o
    ↔ (∃ b, t[o]? = some b ∧ p b) ∧ stop ∈ t.ends L (o + 1) := by
  simp only [mem_ends_mul, mem_ends_byteOf]
  constructor
  · rintro ⟨_, ⟨rfl, hb⟩, hstop⟩
    exact ⟨hb, hstop⟩
  · rintro ⟨hb, hstop⟩
    exact ⟨_, ⟨rfl, hb⟩, hstop⟩

theorem ends_byteOf_mul (h : ∃ b, t[o]? = some b ∧ p b) :
    t.ends (byteOf p * L) o = t.ends L (o + 1) := by
  ext stop
  exact mem_ends_byteOf_mul.trans (and_iff_right h)

theorem ends_byteOf_mul_eq_empty (h : ¬∃ b, t[o]? = some b ∧ p b) : t.ends (byteOf p * L) o = ∅ :=
  Set.eq_empty_of_forall_notMem fun _ hmem => h (mem_ends_byteOf_mul.1 hmem).1

/-- Any number of bytes of a class: the words end up to where a run over the class stops. -/
theorem ends_kstar_byteOf (hp : ∀ b, inside b = true ↔ p b) (ho : o ≤ t.size) :
    t.ends (byteOf p)∗ o = Set.Icc o (t.scanWhile inside o) := by
  ext stop
  rw [mem_ends_kstar, mem_ends_byteOf_mul, Set.mem_Icc]
  fun_induction scanWhile t inside o with
  | case1 o hlt hin ih =>
    have hrun := le_scanWhile t inside (o + 1)
    have hfirst : ∃ b, t[o]? = some b ∧ p b := ⟨_, Array.getElem?_eq_getElem hlt, (hp _).1 hin⟩
    rw [mem_ends_kstar, mem_ends_byteOf_mul, ih hlt]
    simp only [hfirst, true_and]
    omega
  | case2 o hlt hin =>
    have hfirst : ¬∃ b, t[o]? = some b ∧ p b := by
      rintro ⟨b, hb, hpb⟩
      obtain ⟨_, rfl⟩ := Array.getElem?_eq_some_iff.1 hb
      exact hin ((hp _).2 hpb)
    simp only [hfirst, false_and, or_false]
    omega
  | case3 o hge =>
    have hfirst : ¬∃ b, t[o]? = some b ∧ p b := by
      rintro ⟨b, hb, -⟩
      exact hge (Array.getElem?_eq_some_iff.1 hb).1
    simp only [hfirst, false_and, or_false]
    omega

/-- One byte of a class or more. -/
theorem ends_plus_byteOf (hp : ∀ b, inside b = true ↔ p b) (ho : o ≤ t.size) :
    t.ends (byteOf p * (byteOf p)∗) o = Set.Ioc o (t.scanWhile inside o) := by
  ext stop
  have hstar : stop ∈ t.ends (byteOf p)∗ o ↔ stop ∈ Set.Icc o (t.scanWhile inside o) := by
    rw [ends_kstar_byteOf hp ho]
  rw [mem_ends_kstar, Set.mem_Icc] at hstar
  rw [Set.mem_Ioc]
  constructor
  · intro hmem
    have hlt : o < stop := (mem_ends_byteOf_mul.1 hmem).2.1
    exact ⟨hlt, (hstar.1 (.inr hmem)).2⟩
  · rintro ⟨hlt, hle⟩
    exact (hstar.2 ⟨Nat.le_of_lt hlt, hle⟩).resolve_left fun h => by omega

/-- Taking the longest word of each of two languages in turn gives the longest word of both, if no shorter
word of the first one can be followed by anything but the empty word. -/
theorem isGreatest_ends_mul (hfirst : IsGreatest (t.ends L o) m) (hsecond : IsGreatest (t.ends M m) stop)
    (hstuck : ∀ m' ∈ t.ends L o, m' < m → ∀ x ∈ t.ends M m', x = m') :
    IsGreatest (t.ends (L * M) o) stop := by
  refine ⟨mem_ends_mul.2 ⟨m, hfirst.1, hsecond.1⟩, fun x hx => ?_⟩
  obtain ⟨m', hm', hx⟩ := mem_ends_mul.1 hx
  rcases Nat.eq_or_lt_of_le (hfirst.2 hm') with rfl | hlt
  · exact hsecond.2 hx
  · rw [hstuck m' hm' hlt x hx]
    exact Nat.le_trans (Nat.le_of_lt hlt) hsecond.1.1

/-- A part that can be left out is taken as far as it goes, and left out where it cannot begin. -/
theorem isGreatest_ends_one_add (ho : o ≤ t.size)
    (h : IsGreatest (t.ends L o) stop ∨ t.ends L o = ∅ ∧ stop = o) :
    IsGreatest (t.ends (1 + L) o) stop := by
  rcases h with h | ⟨hempty, rfl⟩
  · refine ⟨mem_ends_add.2 (.inr h.1), fun x hx => ?_⟩
    rcases mem_ends_add.1 hx with hx | hx
    · exact (mem_ends_one.1 hx).1 ▸ h.1.1
    · exact h.2 hx
  · refine ⟨mem_ends_add.2 (.inl (mem_ends_one.2 ⟨rfl, ho⟩)), fun x hx => ?_⟩
    rcases mem_ends_add.1 hx with hx | hx
    · exact Nat.le_of_eq (mem_ends_one.1 hx).1
    · exact absurd hx (hempty ▸ Set.notMem_empty x)

theorem eq_of_mem_ends_one_add (hempty : t.ends L o = ∅) (h : stop ∈ t.ends (1 + L) o) : stop = o := by
  rcases mem_ends_add.1 h with h | h
  · exact (mem_ends_one.1 h).1
  · exact absurd h (hempty ▸ Set.notMem_empty stop)

end Text

/-! ### What a scanner finds -/

/-- The longest word of the language that begins at the offset, if there is one. -/
structure Reach.Longest (t : Text) (L : ByteLanguage) (o : Nat) (r : Reach) : Prop where
  upTo : ∀ stop, r = .upTo stop ↔ IsGreatest (t.ends L o) stop
  nothing : r = .nothing ↔ t.ends L o = ∅

/-- The only word of the language that begins at the offset, if there is one. -/
structure Reach.Only (t : Text) (L : ByteLanguage) (o : Nat) (r : Reach) : Prop where
  upTo : ∀ stop, r = .upTo stop ↔ t.ends L o = {stop}
  nothing : r = .nothing ↔ t.ends L o = ∅

namespace Reach

variable {t : Text} {L : ByteLanguage} {o stop : Nat}

theorem longest_of_isGreatest (h : IsGreatest (t.ends L o) stop) : (upTo stop).Longest t L o where
  upTo _ := ⟨fun heq => (upTo.inj heq) ▸ h, fun hx => congrArg _ (h.unique hx)⟩
  nothing := ⟨nofun, fun hempty => absurd h.1 (hempty ▸ Set.notMem_empty stop)⟩

theorem longest_of_empty (h : t.ends L o = ∅) : nothing.Longest t L o where
  upTo _ := ⟨nofun, fun hx => absurd hx.1 (h ▸ Set.notMem_empty _)⟩
  nothing := ⟨fun _ => h, fun _ => rfl⟩

theorem only_of_singleton (h : t.ends L o = {stop}) : (upTo stop).Only t L o where
  upTo _ := by rw [h, Set.singleton_eq_singleton_iff, upTo.injEq]
  nothing := ⟨nofun, fun hempty => absurd (h.symm.trans hempty) (Set.singleton_ne_empty stop)⟩

theorem only_of_empty (h : t.ends L o = ∅) : nothing.Only t L o where
  upTo _ := ⟨nofun, fun hx => absurd (hx.symm.trans h) (Set.singleton_ne_empty _)⟩
  nothing := ⟨fun _ => h, fun _ => rfl⟩

end Reach

namespace Scan

open Byte

variable {t : Text} {p : UInt8 → Prop} {inside : UInt8 → Bool} {o m stop : Nat}

theorem has_iff (hp : ∀ b, inside b = true ↔ p b) :
    has t inside o = true ↔ ∃ b, t[o]? = some b ∧ p b := by
  simp only [has_eq_true_iff, hp]

/-- A run over a class goes on if it can begin. -/
theorem lt_scanWhile_of_has (h : has t inside o = true) : o < t.scanWhile inside o := by
  refine Text.le_scanWhile_of_inside (Nat.le_succ o) fun y h₁ h₂ => ?_
  obtain rfl : y = o := by omega
  exact has_eq_true_iff.1 h

/-! ### Numbers -/

theorem has_dot_iff : has t (· == dot) o = true ↔ ∃ b, t[o]? = some b ∧ b = dot :=
  has_iff fun b => by rw [beq_iff_eq]

theorem has_mark_iff : has t (fun b => b == 'e'.toUInt8 || b == 'E'.toUInt8) o = true
    ↔ ∃ b, t[o]? = some b ∧ (b = 'e'.toUInt8 ∨ b = 'E'.toUInt8) :=
  has_iff fun b => by rw [Bool.or_eq_true, beq_iff_eq, beq_iff_eq]

theorem has_sign_iff : has t (fun b => b == plus || b == minus) o = true
    ↔ ∃ b, t[o]? = some b ∧ (b = plus ∨ b = minus) :=
  has_iff fun b => by rw [Bool.or_eq_true, beq_iff_eq, beq_iff_eq]

theorem ends_digits (ho : o ≤ t.size) : t.ends digits o = Set.Ioc o (t.scanWhile isDigit o) :=
  Text.ends_plus_byteOf isDigit_iff ho

theorem isGreatest_digits (h : has t isDigit o = true) :
    IsGreatest (t.ends digits o) (t.scanWhile isDigit o) := by
  rw [ends_digits (Nat.le_of_lt (lt_size_of_has h))]
  exact isGreatest_Ioc (lt_scanWhile_of_has h)

theorem ends_digits_eq_empty (h : ¬has t isDigit o = true) : t.ends digits o = ∅ :=
  Text.ends_byteOf_mul_eq_empty (mt (has_iff isDigit_iff).2 h)

/-- A fraction is taken as far as it goes, or left out where there is none. -/
theorem fractionEnd_spec (t : Text) (o : Nat) :
    IsGreatest (t.ends fractions o) (fractionEnd t o) ∨ t.ends fractions o = ∅ ∧ fractionEnd t o = o := by
  unfold fractionEnd
  by_cases hdot : has t (· == dot) o = true
  · rw [fractions, Text.ends_byteOf_mul (has_dot_iff.1 hdot), hdot, Bool.true_and]
    split
    · next hdigit => exact .inl (isGreatest_digits hdigit)
    · next hdigit => exact .inr ⟨ends_digits_eq_empty hdigit, rfl⟩
  · rw [Bool.not_eq_true] at hdot
    rw [hdot, Bool.false_and, if_neg Bool.false_ne_true]
    exact .inr ⟨Text.ends_byteOf_mul_eq_empty fun h => by simp [has_dot_iff.2 h] at hdot, rfl⟩

/-- With a sign at will, digits begin at one offset only. -/
theorem ends_signed (t : Text) (o : Nat) :
    t.ends ((1 + byteOf fun b => b = plus ∨ b = minus) * digits) o
      = t.ends digits (if has t (fun b => b == plus || b == minus) o then o + 1 else o) := by
  ext stop
  rw [add_mul, one_mul, Text.mem_ends_add]
  split
  · next hsign =>
    rw [Text.ends_byteOf_mul (has_sign_iff.1 hsign), ends_digits_eq_empty, Set.mem_empty_iff_false, false_or]
    -- a sign is no digit
    intro hdigit
    obtain ⟨b, hb, hsign⟩ := has_sign_iff.1 hsign
    obtain ⟨b', hb', hdigit⟩ := has_eq_true_iff.1 hdigit
    cases hb.symm.trans hb'
    rcases hsign with rfl | rfl <;> exact absurd hdigit (by decide)
  · next hsign =>
    rw [Text.ends_byteOf_mul_eq_empty (mt has_sign_iff.2 hsign), Set.mem_empty_iff_false, or_false]

/-- An exponent is taken as far as it goes, or left out where there is none. -/
theorem exponentEnd_spec (t : Text) (o : Nat) :
    IsGreatest (t.ends exponents o) (exponentEnd t o) ∨ t.ends exponents o = ∅ ∧ exponentEnd t o = o := by
  unfold exponentEnd
  split
  · next hmark =>
    dsimp only
    generalize hd : (if has t (fun b => b == plus || b == minus) (o + 1) then o + 2 else o + 1) = d
    have hends : t.ends exponents o = t.ends digits d := by
      rw [← hd, exponents, Text.ends_byteOf_mul (has_mark_iff.1 hmark), ends_signed]
    rw [hends]
    split
    · next hdigit => exact .inl (isGreatest_digits hdigit)
    · next hdigit => exact .inr ⟨ends_digits_eq_empty hdigit, rfl⟩
  · next hmark => exact .inr ⟨Text.ends_byteOf_mul_eq_empty (mt has_mark_iff.2 hmark), rfl⟩

/-- Neither a fraction nor an exponent begins with a digit, and no exponent with a point. -/
theorem ends_eq_empty_of_digit (h : ∃ b, t[o]? = some b ∧ isDigit b = true) :
    t.ends fractions o = ∅ ∧ t.ends exponents o = ∅ := by
  obtain ⟨b, hb, hdigit⟩ := h
  refine ⟨Text.ends_byteOf_mul_eq_empty ?_, Text.ends_byteOf_mul_eq_empty ?_⟩
  · rintro ⟨_, hb', rfl⟩
    cases hb.symm.trans hb'
    exact absurd hdigit (by decide)
  · rintro ⟨_, hb', rfl | rfl⟩ <;> cases hb.symm.trans hb' <;> exact absurd hdigit (by decide)

theorem ends_exponents_of_dot (h : ∃ b, t[o]? = some b ∧ b = dot) : t.ends exponents o = ∅ := by
  refine Text.ends_byteOf_mul_eq_empty ?_
  obtain ⟨_, hb, rfl⟩ := h
  rintro ⟨_, hb', rfl | rfl⟩ <;> exact absurd (hb.symm.trans hb') (by decide)

/-- No exponent begins inside of a fraction. -/
theorem ends_exponents_of_lt_fractionEnd (hstop : stop ∈ t.ends (1 + fractions) o)
    (hlt : stop < fractionEnd t o) : t.ends exponents stop = ∅ := by
  rcases fractionEnd_spec t o with hend | ⟨hempty, hend⟩
  · obtain ⟨hdot, hdigits⟩ := Text.mem_ends_byteOf_mul.1 hend.1
    rcases Text.mem_ends_add.1 hstop with hstop | hstop
    · obtain rfl := (Text.mem_ends_one.1 hstop).1
      exact ends_exponents_of_dot hdot
    · have hstop := (Text.mem_ends_byteOf_mul.1 hstop).2
      rw [ends_digits (Nat.le_trans hdigits.1 hdigits.2.1), Set.mem_Ioc] at hstop hdigits
      exact (ends_eq_empty_of_digit (Text.inside_of_lt_scanWhile (Nat.le_of_lt hstop.1) (by omega))).2
  · have := Text.eq_of_mem_ends_one_add hempty hstop
    omega

/-- **The scanner for numbers finds the longest number.** -/
theorem number_longest (ho : o ≤ t.size) : (number t o).reach.Longest t numbers o := by
  unfold number
  dsimp only
  split
  · next hnone =>
    refine Reach.longest_of_empty (Set.eq_empty_of_forall_notMem fun stop hstop => ?_)
    -- there is no digit to begin with
    obtain ⟨m, hm, -⟩ := Text.mem_ends_mul.1 hstop
    obtain ⟨d, hd, -⟩ := Text.mem_ends_mul.1 hm
    rw [ends_digits ho, beq_iff_eq.1 hnone, Set.Ioc_self] at hd
    exact hd
  · next hsome =>
    have hdigits : IsGreatest (t.ends digits o) (t.scanWhile isDigit o) := by
      have hle := Text.le_scanWhile t isDigit o
      have hne : t.scanWhile isDigit o ≠ o := by simpa using hsome
      rw [ends_digits ho]
      exact isGreatest_Ioc (by omega)
    have hinside : ∀ m ∈ t.ends digits o, m < t.scanWhile isDigit o →
        t.ends fractions m = ∅ ∧ t.ends exponents m = ∅ := fun m hm hlt =>
      ends_eq_empty_of_digit (Text.inside_of_lt_scanWhile hm.1 hlt)
    have hmantissa : IsGreatest (t.ends (digits * (1 + fractions)) o)
        (fractionEnd t (t.scanWhile isDigit o)) :=
      Text.isGreatest_ends_mul hdigits
        (Text.isGreatest_ends_one_add hdigits.1.2.1 (fractionEnd_spec t _))
        fun m hm hlt x hx => Text.eq_of_mem_ends_one_add (hinside m hm hlt).1 hx
    refine Reach.longest_of_isGreatest (Text.isGreatest_ends_mul hmantissa
      (Text.isGreatest_ends_one_add hmantissa.1.2.1 (exponentEnd_spec t _)) fun m hm hlt x hx => ?_)
    -- in front of the end of the mantissa stands a digit or the point
    refine Text.eq_of_mem_ends_one_add ?_ hx
    obtain ⟨d, hd, hm⟩ := Text.mem_ends_mul.1 hm
    rcases Nat.eq_or_lt_of_le (hdigits.2 hd) with rfl | hd'
    · exact ends_exponents_of_lt_fractionEnd hm hlt
    · rw [Text.eq_of_mem_ends_one_add (hinside d hd hd').1 hm]
      exact (hinside d hd hd').2

/-! ### Identifiers -/

theorem has_first_iff : has t (fun b => isAlpha b || b == underscore) o = true
    ↔ ∃ b, t[o]? = some b ∧ (Between 'A' 'Z' b ∨ Between 'a' 'z' b ∨ b = underscore) :=
  has_iff fun b => by
    rw [Bool.or_eq_true, isAlpha_iff, beq_iff_eq, or_assoc]

theorem isWord_iff (b : UInt8) : isWord b = true
    ↔ Between 'A' 'Z' b ∨ Between 'a' 'z' b ∨ Between '0' '9' b ∨ b = underscore := by
  rw [isWord, isAlnum, Bool.or_eq_true, Bool.or_eq_true, isAlpha_iff, isDigit_iff, beq_iff_eq,
    or_assoc, or_assoc]

/-- **The scanner for identifiers finds the longest identifier.** -/
theorem identifier_longest (t : Text) (o : Nat) :
    (identifier t o).reach.Longest t identifiers o := by
  unfold identifier
  split
  · next hfirst =>
    refine Reach.longest_of_isGreatest ?_
    rw [identifiers, Text.ends_byteOf_mul (has_first_iff.1 hfirst),
      Text.ends_kstar_byteOf isWord_iff (lt_size_of_has hfirst)]
    exact isGreatest_Icc (Text.le_scanWhile t isWord (o + 1))
  · next hfirst =>
    exact Reach.longest_of_empty (Text.ends_byteOf_mul_eq_empty (mt has_first_iff.2 hfirst))

/-! ### Quoted texts -/

section Quoted

variable {quote : UInt8}

/-- One step between the quotes: two bytes behind a backslash, or a byte that needs none. -/
theorem mem_ends_protectedBytes (ho : o < t.size) :
    stop ∈ t.ends (protectedBytes quote) o ↔ (t[o] = backslash ∧ o + 1 < t.size ∧ stop = o + 2)
      ∨ (t[o] ≠ quote ∧ t[o] ≠ backslash ∧ stop = o + 1) := by
  have hnext : (∃ b, t[o + 1]? = some b ∧ True) ↔ o + 1 < t.size := by
    simp [Array.getElem?_eq_some_iff]
  rw [protectedBytes, Text.mem_ends_add, Text.mem_ends_byteOf_mul, Text.mem_ends_byteOf,
    Text.mem_ends_byteOf, hnext, Array.getElem?_eq_getElem ho]
  simp only [Option.some.injEq, exists_eq_left']
  tauto

theorem lt_size_of_mem_ends {L : ByteLanguage} {b : UInt8} (h : stop ∈ t.ends L o)
    (hget : t[stop]? = some b) : o < t.size :=
  Nat.lt_of_le_of_lt h.1 (Array.getElem?_eq_some_iff.1 hget).1

/-- The closing quote is found where what stands between the quotes can end. -/
theorem closingQuote_eq_some_iff (hother : quote ≠ backslash) :
    closingQuote t quote o = some stop
      ↔ stop ∈ t.ends (protectedBytes quote)∗ o ∧ t[stop]? = some quote := by
  fun_induction closingQuote t quote o with
  | case1 o hlt hescaped ih =>
    rw [Bool.and_eq_true, beq_iff_eq, decide_eq_true_eq] at hescaped
    refine ih.trans ?_
    rw [Text.mem_ends_kstar (o := o), Text.mem_ends_mul]
    refine and_congr_left fun hget => ⟨fun h => .inr ⟨o + 2, ?_, h⟩, ?_⟩
    · exact (mem_ends_protectedBytes hlt).2 (.inl ⟨hescaped.1, hescaped.2, rfl⟩)
    · rintro (⟨rfl, -⟩ | ⟨m, hm, hmem⟩)
      · rw [Array.getElem?_eq_getElem hlt, hescaped.1] at hget
        exact absurd (Option.some.inj hget).symm hother
      · rcases (mem_ends_protectedBytes hlt).1 hm with ⟨-, -, rfl⟩ | ⟨-, hplain, -⟩
        · exact hmem
        · exact absurd hescaped.1 hplain
  | case2 o hlt hplain hquote =>
    rw [beq_iff_eq] at hquote
    have hget : t[o]? = some quote := hquote ▸ Array.getElem?_eq_getElem hlt
    rw [Text.mem_ends_kstar, Text.mem_ends_mul, Option.some.injEq]
    constructor
    · rintro rfl
      exact ⟨.inl ⟨rfl, Nat.le_of_lt hlt⟩, hget⟩
    · rintro ⟨⟨rfl, -⟩ | ⟨m, hm, -⟩, -⟩
      · rfl
      · -- neither a backslash nor a byte that needs none
        rcases (mem_ends_protectedBytes hlt).1 hm with ⟨hslash, -⟩ | ⟨hne, -⟩
        · exact absurd (hquote.symm.trans hslash) hother
        · exact absurd hquote hne
  | case3 o hlt hescaped hquote ih =>
    rw [beq_iff_eq] at hquote
    rw [Bool.and_eq_true, beq_iff_eq, decide_eq_true_eq, not_and] at hescaped
    refine ih.trans ?_
    rw [Text.mem_ends_kstar (o := o), Text.mem_ends_mul]
    refine and_congr_left fun hget => ⟨fun h => .inr ⟨o + 1, ?_, h⟩, ?_⟩
    · -- a quote is still to come, so a backslash here would protect a byte
      exact (mem_ends_protectedBytes hlt).2
        (.inr ⟨hquote, fun hslash => hescaped hslash (lt_size_of_mem_ends h hget), rfl⟩)
    · rintro (⟨rfl, -⟩ | ⟨m, hm, hmem⟩)
      · rw [Array.getElem?_eq_getElem hlt] at hget
        exact absurd (Option.some.inj hget) hquote
      · rcases (mem_ends_protectedBytes hlt).1 hm with ⟨hslash, hnext, -⟩ | ⟨-, -, rfl⟩
        · exact absurd hnext (hescaped hslash)
        · exact hmem
  | case4 o hge =>
    constructor
    · intro h
      cases h
    · intro h
      exact absurd (lt_size_of_mem_ends h.1 h.2) hge

/-- Texts in quotes of one kind: the quote, and behind it the closing one. -/
theorem mem_ends_quotedBy (hother : quote ≠ backslash) :
    stop ∈ t.ends (quotedBy quote) o
      ↔ t[o]? = some quote ∧ ∃ m, closingQuote t quote (o + 1) = some m ∧ stop = m + 1 := by
  have hone : ∀ x : Nat, (∃ b, t[x]? = some b ∧ b = quote) ↔ t[x]? = some quote := fun x => by simp
  rw [quotedBy, Text.mem_ends_byteOf_mul, hone]
  simp only [Text.mem_ends_mul, Text.mem_ends_byteOf, hone, closingQuote_eq_some_iff hother]
  refine and_congr_right fun _ => exists_congr fun m => ?_
  rw [and_assoc, and_comm (a := stop = m + 1)]

end Quoted

theorem mem_ends_quotedTexts : stop ∈ t.ends quotedTexts o
    ↔ ∃ quote, t[o]? = some quote ∧ (quote == doubleQuote || quote == Byte.quote) = true
      ∧ ∃ m, closingQuote t quote (o + 1) = some m ∧ stop = m + 1 := by
  rw [quotedTexts, Text.mem_ends_add, mem_ends_quotedBy (by decide), mem_ends_quotedBy (by decide)]
  constructor
  · rintro (⟨hget, hclosing⟩ | ⟨hget, hclosing⟩)
    · exact ⟨_, hget, by decide, hclosing⟩
    · exact ⟨_, hget, by decide, hclosing⟩
  · rintro ⟨quote, hget, hquote, hclosing⟩
    rw [Bool.or_eq_true, beq_iff_eq, beq_iff_eq] at hquote
    rcases hquote with rfl | rfl
    · exact .inr ⟨hget, hclosing⟩
    · exact .inl ⟨hget, hclosing⟩

/-- **The scanner for quoted texts finds the only one there is.** -/
theorem quoted_only (t : Text) (o : Nat) : (quoted t o).reach.Only t quotedTexts o := by
  have hempty : (∀ quote, t[o]? = some quote → (quote == doubleQuote || quote == Byte.quote) = true →
      closingQuote t quote (o + 1) = none) → Reach.nothing.Only t quotedTexts o := by
    refine fun hnone => Reach.only_of_empty (Set.eq_empty_of_forall_notMem fun stop hstop => ?_)
    obtain ⟨quote, hget, hquote, m, hm, -⟩ := mem_ends_quotedTexts.1 hstop
    rw [hnone quote hget hquote] at hm
    cases hm
  unfold quoted
  cases hget : t[o]? with
  | none => exact hempty fun quote h => by cases hget.symm.trans h
  | some quote =>
    dsimp only
    split
    · next hquote =>
      cases hclosing : closingQuote t quote (o + 1) with
      | none =>
        refine hempty fun quote' h _ => ?_
        cases hget.symm.trans h
        exact hclosing
      | some m =>
        refine Reach.only_of_singleton (Set.ext fun stop => ?_)
        rw [mem_ends_quotedTexts, hget, Set.mem_singleton_iff]
        constructor
        · rintro ⟨_, ⟨⟩, -, m', hm', rfl⟩
          rw [Option.some.inj (hclosing.symm.trans hm')]
        · rintro rfl
          exact ⟨quote, rfl, hquote, m, hclosing, rfl⟩
    · next hquote =>
      refine hempty fun quote' h hquote' => ?_
      cases hget.symm.trans h
      exact absurd hquote' hquote

end Scan

end Packrat
