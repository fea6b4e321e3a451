import Packrat.Proofs.Parse.Account
import Packrat.Proofs.Parse.Parts
import Packrat.Proofs.Scan.Languages
import Mathlib.Data.Nat.Digits.Defs

/-!
The numbers in a parse tree.

The node of a number stands for the longest number at its place, and its value is what the digits say:
an integer as long as there are nothing but digits and the integer fits a signed word, and a
floating-point number otherwise.

Main statement: `Parser.tokens_match_languages`.
-/

namespace Packrat

/-! ### Values -/

/-- The number that a text of decimal digits stands for. -/
def Bytes.decimalValue (bs : Bytes) : Nat := Nat.ofDigits 10 (bs.map fun b => b.toNat - 48).reverse

theorem Bytes.digitsValue_eq (bs : Bytes) : digitsValue bs = decimalValue bs := by
  unfold digitsValue decimalValue
  rw [Nat.ofDigits_eq_foldr, List.foldr_reverse, List.foldl_map]
  simp only [Nat.cast_id, Nat.add_comm]

/-- The value of a number: the integer that it stands for, if the text has neither a point nor an exponent
and the integer is below `2 ^ 63`, and a floating-point number if not. -/
structure Value.OfNumber (bs : Bytes) (v : Value) : Prop where
  int : ∀ n, v = .int n ↔ (∀ b ∈ bs, b ≠ Byte.dot ∧ b ≠ 'e'.toUInt8 ∧ b ≠ 'E'.toUInt8)
    ∧ n = bs.decimalValue ∧ n < 2 ^ 63
  float : (∃ n, v = .int n) ∨ ∃ x, v = .float x

theorem Value.any_isFloatMark_eq_false (bs : Bytes) : bs.any isFloatMark = false
    ↔ ∀ b ∈ bs, b ≠ Byte.dot ∧ b ≠ 'e'.toUInt8 ∧ b ≠ 'E'.toUInt8 := by
  simp only [List.any_eq_false, isFloatMark, Bool.or_eq_true, beq_iff_eq, not_or, and_assoc]

theorem Value.ofNumber_spec (bs : Bytes) : Value.OfNumber bs (.ofNumber bs) := by
  have hplain := any_isFloatMark_eq_false bs
  unfold ofNumber
  dsimp only
  rw [Bytes.digitsValue_eq]
  split
  · next h =>
    rw [Bool.and_eq_true, Bool.not_eq_true', decide_eq_true_eq] at h
    refine ⟨fun n => ?_, .inl ⟨_, rfl⟩⟩
    rw [int.injEq, ← hplain]
    constructor
    · rintro rfl
      exact ⟨h.1, rfl, h.2⟩
    · exact fun h => h.2.1.symm
  · next h =>
    rw [Bool.and_eq_true, Bool.not_eq_true', decide_eq_true_eq, hplain] at h
    refine ⟨fun n => ⟨nofun, ?_⟩, .inr ⟨_, rfl⟩⟩
    rintro ⟨hdigits, rfl, hlt⟩
    exact absurd ⟨hdigits, hlt⟩ h

example : Value.ofNumber (Bytes.ascii "9223372036854775808") matches .float _ := by decide +kernel

/-! ### Nodes -/

/-- The node stands for a number of the text. -/
structure NodeInfo.Number (src : Source) (i : NodeInfo) : Prop where
  longest : IsGreatest (src.text.ends Scan.numbers i.start) i.stop
  value : i.value.OfNumber (src.text.slice i.start i.stop)

namespace Parse

variable {ctx : Context}

/-- The leaf of a number. -/
theorem token_number {kind : TokenKind} {o stop : Nat} {info : NodeInfo} (ho : o ≤ ctx.source.size)
    (h : (tokenEntryOf ctx kind o).outcome = .ok stop (.one (.node ⟨tokenSymbol ctx kind, o⟩ (.node info []))))
    (htype : info.type = Bytes.ascii "Number") : info.Number ctx.source := by
  have hsize := (skipped_linked ho).stop_le
  obtain ⟨y, hy, hflat⟩ := Outcome.flat_eq_ok h
  cases kind with
  | number =>
    obtain ⟨_, hreach, hfound⟩ := nodeResult_eq_ok hy
    cases hfound
    cases hflat
    have hinside := (Scan.number_inside hsize).upTo hreach
    refine ⟨((Scan.number_longest hsize).upTo stop).1 hreach, ?_⟩
    show (Value.ofNumber (ctx.source.slice (skipped ctx o).1 stop)).OfNumber _
    rw [Source.slice_eq hinside.1 hinside.2.1]
    exact Value.ofNumber_spec _
  | string =>
    obtain ⟨_, -, hfound⟩ := nodeResult_eq_ok hy
    cases hfound
    cases hflat
    exact absurd (show Bytes.ascii "String" = Bytes.ascii "Number" from htype) (by decide)
  | ident =>
    obtain ⟨_, -, hfound⟩ := nodeResult_eq_ok hy
    cases hfound
    cases hflat
    exact absurd (show Bytes.ascii "Identifier" = Bytes.ascii "Number" from htype) (by decide)
  | newline =>
    obtain ⟨_, -, hfound⟩ := scanned_eq_ok hy
    cases hfound
    cases hflat
  | endOfInput =>
    simp only [tokenResult] at hy
    split at hy
    · cases hy
      cases hflat
    · cases hy
  | indent => cases hy
  | dedent => cases hy

/-- A node that no rule has made and that is called a number stands for one. -/
def StandsForNumber (src : Source) (i : NodeInfo) : Prop :=
  i.rule = none → i.type = Bytes.ascii "Number" → i.Number src

theorem number_cases : NodeCases ctx fun s => StandsForNumber ctx.source s.info where
  token ho _ h _ htype := token_number ho h htype
  operator _ htype _ htype' := absurd (htype.symm.trans htype') (by decide)
  rule _ hrule _ _ hrule' := by cases hrule.symm.trans hrule'
  program _ htype _ htype' := absurd (htype.symm.trans htype') (by decide)

end Parse

namespace Parser

open Parse

/-- **Token matchers implement their languages.** From every offset of a text the scanner for numbers finds
the longest number, that for identifiers the longest identifier, and that for quoted texts the only one
there is; each of them finds nothing if and only if there is none.  The node of a number, in a parse tree
or in a region, stands for the longest number at its place, and its value is the integer that the text says
if and only if the text has neither a point nor an exponent and the integer is below `2 ^ 63`; it is a
floating-point number otherwise. -/
theorem tokens_match_languages :
    (∀ (t : Text) (o : Nat), o ≤ t.size →
      (Scan.number t o).reach.Longest t Scan.numbers o
        ∧ (Scan.identifier t o).reach.Longest t Scan.identifiers o
        ∧ (Scan.quoted t o).reach.Only t Scan.quotedTexts o)
      ∧ ∀ (p : Parser) (source : Source) (log : Log),
        (∀ tree, (p.parse source log).1 = .ok tree → ∀ id ∈ tree.preorder, ∀ s,
          tree.node? id = some s → StandsForNumber source s.info)
        ∧ ∀ rule o stop depth tree, o ≤ source.size →
          (p.region source rule o stop depth log).1 = .ok (some tree) →
            ∀ i ∈ tree.nodes, StandsForNumber source i := by
  refine ⟨fun t o ho => ⟨Scan.number_longest ho, Scan.identifier_longest t o, Scan.quoted_only t o⟩,
    fun p source log => ⟨fun tree hparse id hid s hnode => ?_, fun rule o stop depth tree ho hregion i hi => ?_⟩⟩
  · obtain ⟨sub, hsub, hinfo⟩ := number_cases.parse hparse hid hnode
    rw [hinfo] at hsub
    exact fun hrule htype => ⟨(hsub hrule htype).longest, (hsub hrule htype).value⟩
  · obtain ⟨sub, hsub, hinfo⟩ := number_cases.region ho hregion hi
    rw [hinfo] at hsub
    exact fun hrule htype => ⟨(hsub hrule htype).longest, (hsub hrule htype).value⟩

/-- The grammar `s <- NUMBER`. -/
def numberGrammar : Grammar where
  name := Bytes.ascii "number"
  rules := #[{ name := Bytes.ascii "s", nodeType := Bytes.ascii "s", isFragment := false,
               description := [], pattern := .atom none (.token .number) }]

def numberParser : Parser where
  grammar := numberGrammar
  maxDepth := 1
  leftRecursive_eq := by decide +kernel

/-- The largest integer of a signed word. -/
def largest : Source := .ofBytes (Bytes.ascii "9223372036854775807")

theorem parse_largest :
    (numberParser.parse largest #[]).1.toOption.map (fun tree =>
        (tree.preorder, (tree.node? 1).map fun s => (s.info.rule, s.info.type, s.info.value)))
      = some ([0, 1], some (none, Bytes.ascii "Number", .int 9223372036854775807)) := by cbv

theorem region_largest :
    (numberParser.region largest 0 0 19 1 #[]).1.toOption.bind (fun tree => tree.map fun tree =>
        tree.nodes.map fun i => (i.rule, i.type))
      = some [(some 0, Bytes.ascii "s"), (none, Bytes.ascii "Number")] := by cbv

/-- In "1.5e-" the exponent is given up, and the number ends behind the fraction; and the largest integer of
a signed word is still one. -/
theorem tokens_match_largest :
    0 ≤ (Bytes.ascii "1.5e-").toArray.size
      ∧ IsGreatest (Text.ends (Bytes.ascii "1.5e-").toArray Scan.numbers 0) 3
      ∧ (∃ tree s, (numberParser.parse largest #[]).1 = .ok tree ∧ 1 ∈ tree.preorder
        ∧ tree.node? 1 = some s ∧ s.info.rule = none ∧ s.info.type = Bytes.ascii "Number"
        ∧ s.info.value = .int 9223372036854775807 ∧ s.info.Number largest)
      ∧ ∃ tree i, 0 ≤ largest.size ∧ (numberParser.region largest 0 0 19 1 #[]).1 = .ok (some tree)
        ∧ i ∈ tree.nodes ∧ i.rule = none ∧ i.type = Bytes.ascii "Number" ∧ i.Number largest := by
  obtain ⟨hscan, hnodes⟩ := tokens_match_languages
  obtain ⟨htree, hregion⟩ := hnodes numberParser largest #[]
  refine ⟨Nat.zero_le _, ?_, ?_, ?_⟩
  · exact ((hscan (Bytes.ascii "1.5e-").toArray 0 (Nat.zero_le _)).1.upTo 3).1 (by decide +kernel)
  · cases hparse : (numberParser.parse largest #[]).1 with
    | error e =>
      have hfacts := parse_largest
      rw [hparse] at hfacts
      cases hfacts
    | ok tree =>
      have hfacts := parse_largest
      rw [hparse] at hfacts
      obtain ⟨hids, hnode⟩ := Prod.mk.inj (Option.some.inj hfacts)
      obtain ⟨s, hnode, hs⟩ := Option.map_eq_some_iff.1 hnode
      obtain ⟨hrule, hs⟩ := Prod.mk.inj hs
      obtain ⟨htype, hvalue⟩ := Prod.mk.inj hs
      have hid : 1 ∈ tree.preorder := by rw [hids]; decide
      exact ⟨tree, s, rfl, hid, hnode, hrule, htype, hvalue, htree tree hparse 1 hid s hnode hrule htype⟩
  · cases hrun : (numberParser.region largest 0 0 19 1 #[]).1 with
    | error e =>
      have hfacts := region_largest
      rw [hrun] at hfacts
      cases hfacts
    | ok found =>
      have hfacts := region_largest
      rw [hrun] at hfacts
      obtain ⟨tree, rfl, hnodes⟩ := Option.map_eq_some_iff.1 hfacts
      obtain ⟨i, hi, hfacts⟩ := List.mem_map.1
        (hnodes ▸ (by simp) : ((none : Option Nat), Bytes.ascii "Number") ∈ tree.nodes.map fun i => (i.rule, i.type))
      obtain ⟨hrule, htype⟩ := Prod.mk.inj hfacts
      exact ⟨tree, i, Nat.zero_le _, rfl, hi, hrule, htype,
        hregion 0 0 19 1 tree (Nat.zero_le _) hrun i hi hrule htype⟩

end Parser

end Packrat
