import Packrat.Proofs.Regex.Runs
import Packrat.Proofs.Scan.Comments

/-!
Comments are what their expressions match.

The shape of a comment pattern is recognised on its text, and the comment is then searched for without its
expression.  That is the same (`Scan.comment_agrees`): the opening is what the expression begins with
(`Comment.reads_parts`), and what follows it is an expression of the kind that the shape says
(`Comment.means_of_directShape?`).

A comment with an expression of its own is only matched where its opening stands.  There are two ways to
write a pattern for which that is wrong, and both leave the last byte of the opening to a factor that need
not be there.  The `+` behind the byte may be quantified again, as in `a+*b`; and a bar is overlooked behind
an escape that takes a backslash, as in `a\c\|b`, which is read as a choice.
-/

namespace Packrat

open Regex (Step GroupCount Quantified literals alternative)

namespace Comment

variable {opening rest source whole : Bytes} {pair : Bytes × Bytes} {shape : Shape} {c : Comment}
  {fuel k : Nat} {g : GroupCount} {ts : List Regex.Token} {x : Step} {b : UInt8}

/-! ### Shapes -/

/-- What follows the opening of a comment with a direct shape. -/
inductive Shape.Means : Shape → Regex → Prop
  | literal : Means .literal .empty
  | toLineEnd : Means .toLineEnd (.seq (.repeated (.byte .withinLine) .star false) .empty)
  | toInputEnd {c : ByteClass} : (∀ b, c.accepts b) →
    Means .toInputEnd (.seq (.repeated (.byte c) .star false) .empty)
  | upTo {c : ByteClass} {terminator : Bytes} {crossesLines : Bool} :
    (∀ b, c.accepts b = (crossesLines || !Byte.isLineEnd b)) →
    Means (.upTo terminator crossesLines)
      (.seq (.repeated (.byte c) .star true) (literals terminator .empty))

/-- The runs of any bytes accept every byte. -/
theorem exists_of_mem_anyRuns {run : Bytes} (h : run ∈ anyRuns) :
    ∃ c, (run, c) ∈ Regex.runs ∧ ∀ b, c.accepts b := by
  simp only [anyRuns, List.map_cons, List.map_nil, List.mem_cons, List.not_mem_nil, or_false] at h
  rcases h with rfl | rfl | rfl
  · exact ⟨.bracket false [.named .space, .unnamed .space], by simp [Regex.runs],
      fun b => by simp [ByteClass.accepts, BracketItem.accepts]⟩
  · exact ⟨.bracket false [.unnamed .space, .named .space], by simp [Regex.runs],
      fun b => by simp [ByteClass.accepts, BracketItem.accepts]⟩
  · exact ⟨.bracket true [], by simp [Regex.runs], fun b => by simp [ByteClass.accepts]⟩

theorem terminated?_eq_some {pattern : Bytes} {crossesLines : Bool}
    (h : terminated? pattern crossesLines = some shape) :
    ∃ text, plainText? pattern = some text ∧ shape = .upTo text crossesLines := by
  unfold terminated? at h
  split at h
  · next b bs hplain => exact ⟨b :: bs, hplain, (Option.some.inj h).symm⟩
  · cases h

/-- What is recognised as a direct shape is read as what the shape says, and nothing is left of it. -/
theorem means_of_directShape? (h : directShape? opening rest = some shape)
    (hlex : Regex.Token.lexFrom fuel .outside rest = some ts) (hread : alternative k g ts = some x) :
    shape.Means x.1 ∧ x.2.2 = [] := by
  have hline : (Bytes.ascii ".*", ByteClass.withinLine) ∈ Regex.runs := List.mem_cons_self
  unfold directShape? at h
  split at h
  · next hempty =>
    obtain rfl := List.isEmpty_iff.mp hempty
    obtain rfl := Regex.Token.lexFrom_nil hlex
    obtain rfl := Regex.alternative_nil hread
    split at h
    · cases h
    · obtain rfl := Option.some.inj h
      exact ⟨.literal, rfl⟩
  split at h
  · next hrest =>
    obtain rfl := beq_iff_eq.mp hrest
    obtain rfl := Option.some.inj h
    obtain rfl := Regex.alternative_classRun_last hline hlex hread
    exact ⟨.toLineEnd, rfl⟩
  split at h
  · next run hfind =>
    obtain ⟨c, hrun, hall⟩ := exists_of_mem_anyRuns (List.mem_of_find?_eq_some hfind)
    obtain ⟨hopens, -⟩ := List.find?_eq_some_iff_append.mp hfind
    rw [← List.prefix_iff_eq_append.mp (List.isPrefixOf_iff_prefix.mp hopens)] at hlex
    split at h
    · next hdrop =>
      rw [hdrop, List.append_nil] at hlex
      obtain rfl := Option.some.inj h
      obtain rfl := Regex.alternative_classRun_last hrun hlex hread
      exact ⟨.toInputEnd hall, rfl⟩
    · next pattern hdrop =>
      rw [hdrop] at hlex
      obtain ⟨text, hplain, rfl⟩ := terminated?_eq_some h
      obtain rfl := Regex.alternative_classRun_short hrun hplain hlex hread
      exact ⟨.upTo fun b => by rw [hall, Bool.true_or], rfl⟩
    · cases h
  · split at h
    · next hopens =>
      obtain ⟨pattern, rfl⟩ := List.isPrefixOf_iff_prefix.mp hopens
      obtain ⟨text, hplain, rfl⟩ := terminated?_eq_some h
      rw [show Bytes.ascii ".*?" = Bytes.ascii ".*" ++ [Byte.question] by decide, List.append_assoc]
        at hlex
      obtain rfl := Regex.alternative_classRun_short hline hplain hlex hread
      exact ⟨.upTo fun b => by rw [Bool.false_or]; rfl, rfl⟩
    · cases h

/-- A text begins with a byte that stands for itself, or with a backslash. -/
def BeginsPlain (bs : Bytes) : Prop := ∃ b ∈ bs.head?, ¬ isMeta b ∨ b = Byte.backslash

/-- What begins with a byte that stands for itself has no direct shape. -/
theorem directShape?_of_beginsPlain (h : BeginsPlain rest) (opening : Bytes) :
    directShape? opening rest = none := by
  obtain ⟨b, hb, hplain⟩ := h
  have hne (c : UInt8) (hc : isMeta c) (hslash : c ≠ Byte.backslash) : b ≠ c := by
    rintro rfl
    rcases hplain with hplain | hplain
    · exact hplain hc
    · exact hslash hplain
  have hdot : b ≠ Byte.dot := hne _ (by decide) (by decide)
  have hbracket : b ≠ Byte.openBracket := hne _ (by decide) (by decide)
  cases rest with
  | nil => cases hb
  | cons b' bs =>
    obtain rfl : b' = b := Option.some.inj hb
    have hline : (b' :: bs == Bytes.ascii ".*") = false := by
      rw [show Bytes.ascii ".*" = [Byte.dot, Byte.star] by decide]
      exact beq_eq_false_iff_ne.mpr fun heq => hdot (List.cons.inj heq).1
    have hruns : anyRuns.find? (·.isPrefixOf (b' :: bs)) = none := by
      rw [List.find?_eq_none]
      intro run hrun hopens
      obtain ⟨rest, hrest⟩ := List.isPrefixOf_iff_prefix.mp hopens
      have hhead : run.head? = some Byte.openBracket :=
        (by decide : ∀ run ∈ anyRuns, run.head? = some Byte.openBracket) run hrun
      cases run with
      | nil => cases hhead
      | cons c cs =>
        obtain rfl : c = Byte.openBracket := Option.some.inj hhead
        exact hbracket (List.cons.inj hrest).1.symm
    have hshort : (Bytes.ascii ".*?").isPrefixOf (b' :: bs) = false := by
      rw [show Bytes.ascii ".*?" = [Byte.dot, Byte.star, Byte.question] by decide, List.isPrefixOf,
        beq_eq_false_iff_ne.mpr hdot.symm, Bool.false_and]
    unfold directShape?
    rw [hline, hruns, hshort]
    rfl

/-! ### Openings -/

/-- What is read begins with the opening, and goes on with what the rest of the pattern is read as. -/
def Opens (g : GroupCount) (pair : Bytes × Bytes) (x : Step) : Prop :=
  ∃ fuel ts k s, Regex.Token.lexFrom fuel .outside pair.2 = some ts
    ∧ alternative k g ts = some (s, x.2) ∧ x.1 = literals pair.1 s

/-- What is read begins with the opening, but its last byte is quantified. -/
def OpensQuantified (pair : Bytes × Bytes) (r : Regex) : Prop :=
  BeginsPlain pair.2 ∧ ∃ text b f s, pair.1 = text ++ [b]
    ∧ r = literals text (.seq f s) ∧ Quantified b f

/-- What is read as the two parts of a pattern say. -/
def Reads (g : GroupCount) (pair : Bytes × Bytes) (x : Step) : Prop :=
  Opens g pair x ∨ OpensQuantified pair x.1

theorem extend_cases (whole : Bytes) (b : UInt8) (rest : Bytes) (tail : Bytes × Bytes) :
    extend whole b rest tail = ([], whole)
      ∨ (∃ more, rest = Byte.plus :: more) ∧ extend whole b rest tail = ([b], whole)
      ∨ (∀ c ∈ rest.head?, c ≠ Byte.star ∧ c ≠ Byte.question ∧ c ≠ Byte.openBrace ∧ c ≠ Byte.plus)
        ∧ extend whole b rest tail = (b :: tail.1, tail.2) := by
  unfold extend
  split
  · exact .inl rfl
  · exact .inl rfl
  · exact .inl rfl
  · next h =>
    cases rest with
    | nil => cases h
    | cons c more => exact .inr (.inl ⟨⟨more, congrArg (· :: more) (Option.some.inj h)⟩, rfl⟩)
  · next h₁ h₂ h₃ h₄ =>
    refine .inr (.inr ⟨fun c hc => ⟨?_, ?_, ?_, ?_⟩, rfl⟩) <;> rintro rfl
    · exact h₁ hc
    · exact h₂ hc
    · exact h₃ hc
    · exact h₄ hc

/-- A byte in front of what is read as its parts say. -/
theorem reads_extend (hnext : Regex.Token.next? .outside whole = some (.literal b, .outside, rest))
    (hwhole : BeginsPlain whole)
    (ih : ∀ {fuel ts k x}, Regex.Token.lexFrom fuel .outside rest = some ts →
      alternative k g ts = some x → Reads g pair x)
    (hlex : Regex.Token.lexFrom fuel .outside whole = some ts) (hread : alternative k g ts = some x) :
    Reads g (extend whole b rest pair) x := by
  obtain ⟨c, cs, rfl⟩ : ∃ c cs, whole = c :: cs := by
    cases whole with
    | nil => obtain ⟨b, hb, -⟩ := hwhole; cases hb
    | cons c cs => exact ⟨c, cs, rfl⟩
  obtain ⟨fuel', us, hus, rfl⟩ := Regex.Token.lexFrom_of_next? hnext hlex
  rcases extend_cases (c :: cs) b rest pair with heq | ⟨⟨more, rfl⟩, heq⟩ | ⟨hhead, heq⟩
  · rw [heq]
    exact .inl ⟨fuel, _, k, x.1, hlex, hread, rfl⟩
  · obtain ⟨k', f, vs, s, hq, hs, hx⟩ := Regex.alternative_literal hread
    rw [heq]
    exact .inr ⟨hwhole, [], b, f, s, rfl, hx, Quantified.byte.of_quantified hq⟩
  · obtain ⟨k', s, hs, hx⟩ :=
      Regex.alternative_literal_of_none (Regex.Token.quantity?_of_lexFrom hhead hus) hread
    rw [heq]
    rcases ih hus hs with ⟨fuel, ts, k, s', hts, hs', hx'⟩ | ⟨hplain, text, b', f, s', htext, hx', hf⟩
    · refine .inl ⟨fuel, ts, k, s', hts, hs', hx.trans ?_⟩
      exact congrArg (literals [b]) hx'
    · refine .inr ⟨hplain, b :: text, b', f, s', ?_, hx.trans ?_, hf⟩
      · exact congrArg (b :: ·) htext
      · exact congrArg (literals [b]) hx'

/-- What is read begins with the opening of its text. -/
theorem reads_splitOpening (hlex : Regex.Token.lexFrom fuel .outside source = some ts)
    (hread : alternative k g ts = some x) : Reads g (splitOpening source) x := by
  induction source using splitOpening.induct generalizing fuel ts k x with
  | case1 => exact .inl ⟨fuel, ts, k, x.1, hlex, hread, rfl⟩
  | case2 m rest hm ih =>
    have hmeta : isMeta m := (Bool.and_eq_true_iff.mp hm).1
    rw [splitOpening, if_pos hm]
    exact reads_extend (Regex.Token.next?_escaped hmeta rest) ⟨_, rfl, .inr rfl⟩ ih hlex hread
  | case3 m rest hm =>
    rw [splitOpening, if_neg hm]
    exact .inl ⟨fuel, ts, k, x.1, hlex, hread, rfl⟩
  | case4 b rest hnot hb =>
    rw [splitOpening, if_pos hb]
    · exact .inl ⟨fuel, ts, k, x.1, hlex, hread, rfl⟩
    · exact hnot
  | case5 b rest hnot hb ih =>
    rw [splitOpening, if_neg hb]
    · exact reads_extend (Regex.Token.next?_plain hb rest) ⟨b, rfl, .inl hb⟩ ih hlex hread
    · exact hnot

/-! ### Reading a comment -/

/-- The opening of a pattern and what follows it. -/
def parts (source : Bytes) : Bytes × Bytes :=
  if hasBar source then ([], source) else splitOpening source

theorem reads_parts (hlex : Regex.Token.lexFrom fuel .outside source = some ts)
    (hread : alternative k g ts = some x) : Reads g (parts source) x := by
  unfold parts
  split
  · exact .inl ⟨fuel, ts, k, x.1, hlex, hread, rfl⟩
  · exact reads_splitOpening hlex hread

/-- Where the parts of a pattern have a direct shape, what is read is the opening, and then what the shape
says. -/
theorem means_of_reads (hshape : directShape? pair.1 pair.2 = some shape) (hreads : Reads g pair x) :
    ∃ s, x.1 = literals pair.1 s ∧ shape.Means s ∧ x.2.2 = [] := by
  rcases hreads with ⟨fuel, ts, k, s, hlex, hread, hs⟩ | ⟨hplain, -⟩
  · obtain ⟨hmeans, hrest⟩ := means_of_directShape? hshape hlex hread
    exact ⟨s, hs, hmeans, hrest⟩
  · rw [directShape?_of_beginsPlain hplain] at hshape
    cases hshape

/-- The last byte of the opening has to occur in what an expression matches. -/
def Needs (c : Comment) (r : Regex) : Prop :=
  c.opening = [] ∨ ∃ f, r.factor? (c.opening.length - 1) = some f ∧ ¬ f.isOptional

/-- What is read for a comment: the parts of its pattern, or a choice where no bar was seen. -/
theorem exists_of_read? (h : read? source = some c) :
    ∃ r, Regex.read? source = some r ∧ c.opening = (parts source).1
      ∧ c.shape = (directShape? (parts source).1 (parts source).2).getD (.regex r)
      ∧ ∃ x, Reads {} (parts source) x ∧ (r = x.1 ∨ x.2.2 ≠ [] ∧ ∃ a b, r = .alt a b) := by
  obtain ⟨r, hr, hc⟩ := Option.bind_eq_some_iff.mp h
  obtain ⟨fuel, ts, k, x, hlex, hread, hx⟩ := Regex.exists_of_read? hr
  obtain rfl := (Option.some.inj hc).symm
  exact ⟨r, hr, rfl, rfl, x, reads_parts hlex hread, hx⟩

/-- The expression of a comment with a direct shape is its opening, and then what the shape says. -/
theorem exists_of_direct (h : read? source = some c) (hdirect : ∀ r, c.shape ≠ .regex r) :
    ∃ s, Regex.read? source = some (literals c.opening s) ∧ c.shape.Means s := by
  obtain ⟨r, hr, hopening, hshape, x, hreads, hx⟩ := exists_of_read? h
  cases hd : directShape? (parts source).1 (parts source).2 with
  | none =>
    rw [hd] at hshape
    exact absurd hshape (hdirect r)
  | some shape =>
    rw [hd, Option.getD_some] at hshape
    obtain ⟨s, hs, hmeans, hrest⟩ := means_of_reads hd hreads
    rcases hx with rfl | ⟨hne, -⟩
    · exact ⟨s, by rw [hr, hs, hopening], hshape ▸ hmeans⟩
    · exact absurd hrest hne

/-- A comment with an expression of its own keeps it. -/
theorem eq_of_regex (h : read? source = some c) {s r : Regex} (hs : c.shape = .regex s)
    (hr : Regex.read? source = some r) : s = r := by
  obtain ⟨r', hr', -, hshape, x, hreads, -⟩ := exists_of_read? h
  obtain rfl : r' = r := Option.some.inj (hr'.symm.trans hr)
  rw [hs] at hshape
  cases hd : directShape? (parts source).1 (parts source).2 with
  | none =>
    rw [hd] at hshape
    exact Shape.regex.inj hshape
  | some shape =>
    rw [hd, Option.getD_some] at hshape
    obtain ⟨s, -, hmeans, -⟩ := means_of_reads hd hreads
    cases hshape ▸ hmeans

/-- Where an expression matches that needs the opening of its pattern, the opening stands. -/
theorem startsAt_of_needs (h : read? source = some c) {r : Regex} (hr : Regex.read? source = some r)
    (hneeds : c.Needs r) {w : Regex.Window} {stop : Nat} (hmatch : r.matchFrom w = some stop) :
    w.text.startsAt c.opening w.origin := by
  obtain ⟨r', hr', hopening, -, x, hreads, hx⟩ := exists_of_read? h
  obtain rfl : r' = r := Option.some.inj (hr'.symm.trans hr)
  rcases hneeds with hempty | ⟨f, hfactor, hneeded⟩
  · rw [hempty]
    rfl
  obtain ⟨u, hrun⟩ : ∃ u, r'.run w 0 (w.spot r') .ok = .ok u := by
    unfold Regex.matchFrom at hmatch
    split at hmatch
    · next u hrun => exact ⟨u, hrun⟩
    · cases hmatch
  -- a choice has no factors
  obtain rfl : r' = x.1 := hx.resolve_right fun ⟨_, a, b, heq⟩ => by
    rw [heq] at hfactor
    cases hfactor
  rcases hreads with ⟨fuel, ts, k, s, -, -, hs⟩ | ⟨-, text, b, f', s, htext, hs, hf'⟩
  · rw [hs, Regex.run_literals _ _ _ _ _ rfl] at hrun
    split at hrun
    · next hshows => exact hopening ▸ Regex.Window.startsAt_of_shows hshows
    · cases hrun
  · have hlength : c.opening.length - 1 = text.length := by
      rw [hopening, htext, List.length_append, List.length_singleton, Nat.add_sub_cancel]
    rw [hlength, hs, Regex.factor?_literals, Option.some.injEq] at hfactor
    rw [hs] at hrun
    rw [hopening, htext]
    exact Regex.startsAt_of_run hf' (hfactor ▸ hneeded) rfl hrun

end Comment

namespace Text

variable {t : Text} {o : Nat}

theorem findWithin_eq_of_le {pattern : Bytes} {m n : Nat} (hle : m ≤ n)
    (h : ∀ y, o + m ≤ y → y < o + n → t.startsAt pattern y = false) :
    t.findWithin pattern n o = t.findWithin pattern m o := by
  cases hm : t.findWithin pattern m o with
  | some x =>
    obtain ⟨hox, hlt, hat, hbefore⟩ := findWithin_eq_some_iff.mp hm
    exact findWithin_eq_some_iff.mpr ⟨hox, by omega, hat, hbefore⟩
  | none =>
    refine findWithin_eq_none_iff.mpr fun y hy hyn => ?_
    by_cases hym : y < o + m
    · exact findWithin_eq_none_iff.mp hm y hy hym
    · exact h y (by omega) hyn

/-- A class of all bytes goes on up to the end of the text. -/
theorem scanWhile_of_forall {inside : UInt8 → Bool} (h : ∀ b, inside b) (ho : o ≤ t.size) :
    t.scanWhile inside o = t.size := by
  refine Nat.le_antisymm (scanWhile_le t inside ho) (le_scanWhile_of_inside ho fun x hx hlt => ?_)
  exact ⟨t[x], Array.getElem?_eq_getElem hlt, h _⟩

end Text

/-- The answer of a scanner at an offset that a match with an end stands for: an empty match is none. -/
def Reach.ofMatch (o : Nat) : Option Nat → Reach
  | some stop => Scan.proper o stop
  | none => .nothing

namespace Scan

variable {t : Text} {o : Nat} {c : Comment} {source : Bytes}

/-- The opening is found in full where it stands. -/
theorem commonLength_eq_iff {opening : Bytes} :
    commonLength t opening o = opening.length ↔ t.startsAt opening o := by
  induction opening generalizing o with
  | nil => simp [commonLength, Text.startsAt]
  | cons b bs ih =>
    rw [commonLength, Text.startsAt, Bool.and_eq_true, ← ih]
    split
    · next hb => simp [hb]
    · next hb => simp [hb]

theorem comment_of_not_startsAt (h : ¬ t.startsAt c.opening o) : (comment t c o).reach = .nothing := by
  have hlt : commonLength t c.opening o < c.opening.length :=
    Nat.lt_of_le_of_ne (commonLength_le t c.opening o) (mt commonLength_eq_iff.mp h)
  unfold comment
  dsimp only
  rw [if_pos hlt]
  rfl

/-- The window in which the expression of a comment is matched. -/
def windowAt (t : Text) (o : Nat) : Regex.Window :=
  { text := t, origin := o, stop := min t.size (o + regexWindow),
    cut := min t.size (o + regexWindow) < t.size }

theorem regex_reach (ho : o ≤ t.size) (r : Regex) :
    (regex t r o).reach = .ofMatch o (r.matchFrom (windowAt t o)) := by
  unfold regex
  dsimp only
  rw [if_pos ho]
  rfl

/-- The search for a terminator is the search of the expression. -/
theorem terminated_reach {terminator : Bytes} {crossesLines : Bool} {body : Nat} {cls : ByteClass}
    (hbody : body ≤ t.size) (hcls : ∀ b, cls.accepts b = (crossesLines || !Byte.isLineEnd b)) :
    (terminated t terminator crossesLines o body).reach
      = .ofMatch o ((t.findWithin terminator (t.scanWhile cls.accepts body + 1 - body) body).map
          (· + terminator.length)) := by
  -- no terminator begins where it would go on behind the end of the text
  have hfits : ∀ y, t.size < y + terminator.length → y ≤ t.size → t.startsAt terminator y = false := by
    intro y hlt hsize
    rw [Bool.eq_false_iff]
    intro hstarts
    have := Text.startsAt_append_size hstarts hsize
    omega
  have hle := Text.le_scanWhile t cls.accepts body
  have hsize := Text.scanWhile_le t cls.accepts hbody
  unfold terminated
  cases crossesLines with
  | true =>
    have hall : t.scanWhile cls.accepts body = t.size := Text.scanWhile_of_forall (by simpa using hcls) hbody
    have hfind : t.findWithin terminator (t.size + 1 - body) body = t.find? terminator body t.size :=
      Text.findWithin_eq_of_le (by omega) fun y hy hyn => hfits y (by omega) (by omega)
    rw [if_pos rfl, hall, hfind]
    cases t.find? terminator body t.size <;> rfl
  | false =>
    have hline : cls.accepts = fun b => !Byte.isLineEnd b := funext fun b => by simpa using hcls b
    have hend : lineEnd t body = t.scanWhile cls.accepts body := by rw [lineEnd_eq hbody, hline]
    rw [if_neg Bool.false_ne_true, if_neg (Nat.not_lt.mpr hbody), hend]
    generalize t.scanWhile cls.accepts body = stop at hle hsize ⊢
    have hfind : t.findWithin terminator (stop + 1 - body) body
        = t.find? terminator body (min t.size (stop + terminator.length)) :=
      Text.findWithin_eq_of_le (by omega) fun y hy hyn => hfits y (by omega) (by omega)
    rw [hfind]
    dsimp only
    cases t.find? terminator body (min t.size (stop + terminator.length)) <;> rfl

/-- A comment with a direct shape is what its expression matches. -/
theorem comment_direct {s : Regex} (hmeans : c.shape.Means s) (ho : o ≤ t.size) :
    (comment t c o).reach
      = .ofMatch o ((Regex.literals c.opening s).matchFrom (.rest t o)) := by
  by_cases hstarts : t.startsAt c.opening o
  · have hcommon := commonLength_eq_iff.mpr hstarts
    have hbody : o + c.opening.length ≤ t.size := hcommon ▸ add_commonLength_le ho c.opening
    unfold comment
    dsimp only
    rw [if_neg (by omega)]
    generalize hshape : c.shape = shape at hmeans
    cases hmeans with
    | literal =>
      have hpos := List.length_pos_iff.mpr (c.opening_ne_nil hshape)
      rw [Regex.matchFrom_literals, if_pos hstarts]
      refine (if_neg ?_).symm
      rw [beq_iff_eq]
      omega
    | toLineEnd =>
      rw [Regex.matchFrom_greedy, if_pos hstarts, lineEnd_eq hbody]
      rfl
    | toInputEnd hall =>
      rw [Regex.matchFrom_greedy, if_pos hstarts, Text.scanWhile_of_forall hall hbody]
      rfl
    | upTo hcls =>
      rw [Regex.matchFrom_short, if_pos hstarts]
      exact terminated_reach hbody hcls
  · rw [comment_of_not_startsAt hstarts]
    generalize c.shape = shape at hmeans
    cases hmeans with
    | literal => rw [Regex.matchFrom_literals, if_neg hstarts]; rfl
    | toLineEnd | toInputEnd => rw [Regex.matchFrom_greedy, if_neg hstarts]; rfl
    | upTo => rw [Regex.matchFrom_short, if_neg hstarts]; rfl

/-- **Comments agree with their expressions.** A comment with a direct shape reaches as far as its expression
matches what is left of the text, and is not found where that match is empty or there is none.  A comment
with an expression of its own keeps it, and is found as the expression is in its window, if the last byte of
its opening has to occur there. -/
theorem comment_agrees (hc : Comment.read? source = some c) (ho : o ≤ t.size) :
    ∃ r, Regex.read? source = some r
      ∧ ((∀ s, c.shape ≠ .regex s) → (comment t c o).reach = .ofMatch o (r.matchFrom (.rest t o)))
      ∧ ∀ s, c.shape = .regex s → s = r
        ∧ (c.Needs r → (comment t c o).reach = .ofMatch o (r.matchFrom (windowAt t o))) := by
  obtain ⟨r, hr, -⟩ := Comment.exists_of_read? hc
  refine ⟨r, hr, fun hdirect => ?_, fun s hs => ?_⟩
  · obtain ⟨s, hs, hmeans⟩ := Comment.exists_of_direct hc hdirect
    obtain rfl := Option.some.inj (hr.symm.trans hs)
    exact comment_direct hmeans ho
  · obtain rfl := Comment.eq_of_regex hc hs hr
    refine ⟨rfl, fun hneeds => ?_⟩
    by_cases hstarts : t.startsAt c.opening o
    · have hcommon := commonLength_eq_iff.mpr hstarts
      unfold comment
      dsimp only
      rw [if_neg (by omega), hs]
      exact regex_reach ho s
    · rw [comment_of_not_startsAt hstarts]
      cases hmatch : s.matchFrom (windowAt t o) with
      | none => rfl
      | some stop => exact absurd (Comment.startsAt_of_needs hc hr hneeds hmatch) hstarts

/-- The comment of the pattern `a+b`. -/
def plusComment : Comment where
  source := Bytes.ascii "a+b"
  opening := Bytes.ascii "a"
  shape := .regex (.seq (.repeated (.byte (.exactly 97)) .plus false) (.seq (.byte (.exactly 98)) .empty))
  opening_ne_nil := nofun

/-- A comment over two lines, and one with an expression of its own. -/
theorem comment_agrees_twoLines :
    (∃ r, Regex.read? (Bytes.ascii "/\\*[\\s\\S]*?\\*/") = some r
      ∧ Reach.upTo 6 = .ofMatch 1 (r.matchFrom (.rest (Bytes.ascii "+/*\n*/*/").toArray 1)))
    ∧ ∃ r, Regex.read? (Bytes.ascii "a+b") = some r
      ∧ Reach.upTo 3 = .ofMatch 0 (r.matchFrom (windowAt (Bytes.ascii "aabb").toArray 0)) := by
  constructor
  · have hc : Comment.read? (Bytes.ascii "/\\*[\\s\\S]*?\\*/") = some
        { source := Bytes.ascii "/\\*[\\s\\S]*?\\*/", opening := Bytes.ascii "/*"
          shape := .upTo (Bytes.ascii "*/") true, opening_ne_nil := by decide } := by decide +kernel
    have ho : 1 ≤ (Bytes.ascii "+/*\n*/*/").toArray.size := by decide
    obtain ⟨r, hr, hdirect, -⟩ := comment_agrees hc ho
    have hreach := hdirect fun s hs => by cases hs
    exact ⟨r, hr, hreach ▸ by decide +kernel⟩
  · have hc : Comment.read? (Bytes.ascii "a+b") = some plusComment := by decide +kernel
    have ho : 0 ≤ (Bytes.ascii "aabb").toArray.size := by decide
    obtain ⟨r, hr, -, hregex⟩ := comment_agrees hc ho
    obtain ⟨rfl, hneeds⟩ := hregex _ rfl
    refine ⟨_, hr, hneeds (.inr ⟨_, rfl, by decide⟩) ▸ by decide +kernel⟩

/-- The comment of the pattern `a+*b`. -/
def starredComment : Comment where
  source := Bytes.ascii "a+*b"
  opening := Bytes.ascii "a"
  shape := .regex (.seq (.repeated (.repeated (.byte (.exactly 97)) .plus false) .star false)
    (.seq (.byte (.exactly 98)) .empty))
  opening_ne_nil := nofun

/-- The comment of the pattern `a\c\|b`. -/
def choiceComment : Comment where
  source := Bytes.ascii "a\\c\\|b"
  opening := Bytes.ascii "a"
  shape := .regex (.alt (.seq (.byte (.exactly 97)) (.seq (.byte (.exactly 92)) .empty))
    (.seq (.byte (.exactly 98)) .empty))
  opening_ne_nil := nofun

/-- Two comments that are not found although their expressions match the text: the byte of the opening is
starred in the one, and the opening belongs to one of two choices in the other. -/
theorem comment_overlooks :
    (∃ c r, Comment.read? (Bytes.ascii "a+*b") = some c ∧ c.shape = .regex r
      ∧ r.matchFrom (windowAt (Bytes.ascii "b").toArray 0) = some 1
      ∧ (comment (Bytes.ascii "b").toArray c 0).reach = .nothing)
    ∧ ∃ c r, Comment.read? (Bytes.ascii "a\\c\\|b") = some c ∧ c.shape = .regex r
      ∧ r.matchFrom (windowAt (Bytes.ascii "b").toArray 0) = some 1
      ∧ (comment (Bytes.ascii "b").toArray c 0).reach = .nothing :=
  ⟨⟨starredComment, _, by decide +kernel, rfl, by decide +kernel, by decide +kernel⟩,
    ⟨choiceComment, _, by decide +kernel, rfl, by decide +kernel, by decide +kernel⟩⟩

end Scan

end Packrat
