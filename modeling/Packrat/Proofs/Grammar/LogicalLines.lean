import Packrat.Proofs.Expr.Whitespace
import Packrat.Proofs.Grammar.Texts

/-!
The logical lines of a grammar text.

A line that is left out changes no logical line (`Grammar.joinLines_filter`), and a line that opens a
logical line parts the text: what stands in front of it is joined on its own
(`Grammar.joinLines_opening`), and what stands behind it is carried as far as it continues the line
(`Grammar.joinLines_carried`).

The grammar of a text is then a fold over its logical lines, whatever is logged meanwhile
(`Grammar.toOption_compile`), and notes are only ever added to it (`Grammar.foldlM_notes`).
-/

namespace Packrat

namespace Bytes

variable {bs gap : Bytes}

theorem occurs_iff_isInfix {pattern : Bytes} : occurs pattern bs ↔ pattern <:+: bs := by
  induction bs with
  | nil => simp [occurs]
  | cons b bs ih => rw [occurs, Bool.or_eq_true, ih, List.isPrefixOf_iff_prefix, List.infix_cons_iff]

theorem not_mem_of_mem_lines {text line : Bytes} (h : line ∈ lines text) : Byte.newline ∉ line := by
  suffices ∀ read, Byte.newline ∉ read → line ∈ lines.go read text → Byte.newline ∉ line from
    this [] List.not_mem_nil h
  clear h
  induction text with
  | nil =>
    intro read hread h
    rw [lines.go] at h
    split at h
    · cases h
    · rwa [List.mem_singleton.mp h, List.mem_reverse]
  | cons b text ih =>
    intro read hread h
    rw [lines.go] at h
    split at h
    · rcases List.mem_cons.mp h with rfl | h
      · rwa [List.mem_reverse]
      · exact ih [] List.not_mem_nil h
    · next hb =>
      refine ih _ (fun hmem => ?_) h
      rcases List.mem_cons.mp hmem with rfl | hmem
      · exact hb (beq_self_eq_true _)
      · exact hread hmem

/-! ### Trimming -/

theorem trim_gap_append (hgap : ∀ b ∈ gap, Byte.isBlank b) : trim (gap ++ bs) = trim bs := by
  rw [trim, List.dropWhile_append_of_pos hgap, trim]

/-- Drops white space at the end. -/
def trimEnd (bs : Bytes) : Bytes := (bs.reverse.dropWhile Byte.isBlank).reverse

theorem trimEnd_spec (bs : Bytes) : ∃ back, (∀ b ∈ back, Byte.isBlank b) ∧ bs = trimEnd bs ++ back := by
  refine ⟨(bs.reverse.takeWhile Byte.isBlank).reverse,
    fun b hb => List.mem_takeWhile_imp (List.mem_reverse.mp hb), ?_⟩
  rw [trimEnd, ← List.reverse_append, List.takeWhile_append_dropWhile, List.reverse_reverse]

theorem mem_of_mem_trimEnd {b : UInt8} (h : b ∈ trimEnd bs) : b ∈ bs := by
  obtain ⟨back, -, heq⟩ := trimEnd_spec bs
  exact heq ▸ List.mem_append_left _ h

/-- Behind a text without white space around it, only the end of what follows is trimmed. -/
theorem Tight.trim_append {as : Bytes} (has : as.Tight) (bs : Bytes) :
    Bytes.trim (as ++ bs) = as ++ trimEnd bs := by
  obtain ⟨a, ha, hnot⟩ := has.head
  obtain ⟨c, hc, hnot'⟩ := has.last
  have hhead : ∀ b ∈ (as ++ bs).head?, ¬ Byte.isBlank b := fun b hb => by
    rw [List.head?_append_of_ne_nil _ has.ne_nil] at hb
    exact Option.some.inj (ha.symm.trans hb) ▸ not_isBlank hnot
  have hlast : ∀ b ∈ as.reverse.head?, ¬ Byte.isBlank b := fun b hb => by
    rw [List.head?_reverse] at hb
    exact Option.some.inj (hc.symm.trans hb) ▸ not_isBlank hnot'
  rw [Bytes.trim, dropWhile_eq_self hhead, List.reverse_append, List.dropWhile_append, trimEnd]
  split
  · next hempty =>
    rw [dropWhile_eq_self hlast, List.isEmpty_iff.mp hempty, List.reverse_nil, List.reverse_reverse,
      List.append_nil]
  · rw [List.reverse_append, List.reverse_reverse]

theorem isInfix_trim (bs : Bytes) : trim bs <:+: bs := by
  obtain ⟨front, back, -, -, heq⟩ := trim_spec bs
  exact ⟨front, back, by rw [List.append_assoc, ← heq]⟩

theorem trim_eq_nil_iff : trim bs = [] ↔ ∀ b ∈ bs, Byte.isBlank b := by
  rw [trim, List.reverse_eq_nil_iff, List.dropWhile_eq_nil_iff]
  constructor
  · intro h
    have hempty : bs.dropWhile Byte.isBlank = [] := by
      by_contra hne
      exact absurd (h _ (List.mem_reverse.mpr (List.head_mem hne)))
        (by simpa using List.head_dropWhile_not Byte.isBlank hne)
    exact List.dropWhile_eq_nil_iff.mp hempty
  · intro h b hb
    exact h b ((List.dropWhile_suffix _).subset (List.mem_reverse.mp hb))

end Bytes

namespace Grammar

/-! ### Joining lines -/

/-- A line that is left out: it is blank, or a remark. -/
def ignored (line : Bytes) : Bool :=
  (Bytes.trim line).isEmpty || (Bytes.trim line).head? == some Byte.hash

variable {line current : Bytes} {lines before after : List Bytes}

theorem joinLines_ignored (h : ignored line) (current : Bytes) (lines : List Bytes) :
    joinLines current (line :: lines) = joinLines current lines := by
  rw [joinLines]
  exact if_pos h

theorem joinLines_continues (h : ¬ ignored line) (hcurrent : current ≠ [])
    (hline : continues line (Bytes.trim line)) (lines : List Bytes) :
    joinLines current (line :: lines)
      = joinLines (current ++ Byte.blank :: continuation (Bytes.trim line)) lines := by
  have hopen : (!current.isEmpty && continues line (Bytes.trim line)) = true := by
    simp [hcurrent, hline]
  rw [joinLines]
  exact (if_neg h).trans (if_pos hopen)

theorem joinLines_opens (h : ¬ ignored line) (hline : ¬ continues line (Bytes.trim line))
    (current : Bytes) (lines : List Bytes) :
    joinLines current (line :: lines) = finished current ++ joinLines (Bytes.trim line) lines := by
  have hopen : ¬ (!current.isEmpty && continues line (Bytes.trim line)) = true := by simp [hline]
  rw [joinLines]
  exact (if_neg h).trans (if_neg hopen)

/-- Lines that are left out change no logical line, wherever they stand. -/
theorem joinLines_filter (current : Bytes) (lines : List Bytes) :
    joinLines current (lines.filter fun line => !ignored line) = joinLines current lines := by
  induction lines generalizing current with
  | nil => rfl
  | cons line lines ih =>
    by_cases h : ignored line
    · rw [List.filter_cons_of_neg (by simp [h]), ih, joinLines_ignored h]
    · rw [List.filter_cons_of_pos (by simp [h])]
      simp only [joinLines, ih]

/-- A line that opens a logical line parts the lines around it. -/
theorem joinLines_opening (h : ¬ ignored line) (hline : ¬ continues line (Bytes.trim line))
    (current : Bytes) (before after : List Bytes) :
    joinLines current (before ++ line :: after)
      = joinLines current before ++ joinLines (Bytes.trim line) after := by
  induction before generalizing current with
  | nil => exact joinLines_opens h hline current after
  | cons l before ih =>
    rw [List.cons_append, joinLines, joinLines]
    split
    · exact ih current
    split
    · exact ih _
    · rw [ih, List.append_assoc]

/-- What the lines behind a rule add to it, until the next one that opens a logical line. -/
def carried : List Bytes → List Bytes
  | [] => []
  | line :: lines =>
    if ignored line then carried lines
    else if continues line (Bytes.trim line) then continuation (Bytes.trim line) :: carried lines
    else []

/-- The lines behind those that are carried. -/
def behind : List Bytes → List Bytes
  | [] => []
  | line :: lines =>
    if ignored line then behind lines
    else if continues line (Bytes.trim line) then behind lines
    else line :: lines

/-- Pieces, each behind a blank. -/
def spaced (pieces : List Bytes) : Bytes := pieces.flatMap (Byte.blank :: ·)

theorem spaced_cons (piece : Bytes) (pieces : List Bytes) :
    spaced (piece :: pieces) = Byte.blank :: piece ++ spaced pieces := List.flatMap_cons

/-- An open logical line takes what is carried, and the lines behind are joined on their own. -/
theorem joinLines_carried (hcurrent : current ≠ []) (lines : List Bytes) :
    joinLines current lines = (current ++ spaced (carried lines)) :: joinLines [] (behind lines) := by
  induction lines generalizing current with
  | nil => simp [joinLines, carried, behind, spaced, finished, hcurrent]
  | cons line lines ih =>
    rw [carried, behind]
    split
    · next h => rw [joinLines_ignored h, ih hcurrent]
    split
    · next h hline =>
      rw [joinLines_continues h hcurrent hline, ih (by simp), spaced_cons, List.append_assoc]
    · next h hline =>
      rw [joinLines_opens h hline, joinLines_opens h hline]
      simp [finished, spaced, hcurrent]

/-- Lines that all continue an open logical line, and that are none of those left out. -/
theorem joinLines_pieces (hcurrent : current ≠ [])
    (h : ∀ line ∈ lines, ¬ ignored line ∧ continues line (Bytes.trim line)) (after : List Bytes) :
    joinLines current (lines ++ after)
      = joinLines (current ++ spaced (lines.map fun line => continuation (Bytes.trim line))) after := by
  induction lines generalizing current with
  | nil => simp [spaced]
  | cons line lines ih =>
    obtain ⟨⟨hline, hcontinues⟩, hlines⟩ := List.forall_mem_cons.mp h
    rw [List.cons_append, joinLines_continues hline hcurrent hcontinues, ih (by simp) hlines,
      List.map_cons, spaced_cons, List.append_assoc]

/-- A line that begins with a word is not left out, and continues nothing. -/
theorem opens_of_isWord (h : ∃ b ∈ line.head?, Byte.isWord b) :
    ¬ ignored line ∧ ¬ continues line (Bytes.trim line) := by
  obtain ⟨b, hb, hword⟩ := h
  obtain ⟨bs, rfl⟩ : ∃ bs, line = b :: bs := by
    cases line with
    | nil => cases hb
    | cons c bs => exact ⟨bs, by rw [Option.some.inj hb]⟩
  have hspace : ¬ Byte.isSpace b := Token.not_isSpace_of_isWord hword
  have htrim : Bytes.trim (b :: bs) = b :: Bytes.trimEnd bs :=
    (Bytes.tight_singleton hspace).trim_append bs
  have hhash : b ≠ Byte.hash := Token.ne_of_isWord hword (by decide)
  have hbar : b ≠ Byte.bar := Token.ne_of_isWord hword (by decide)
  exact ⟨by simp [ignored, htrim, hhash], by simp [continues, hspace, hbar]⟩

theorem joinLines_of_opens (h : ∀ line ∈ lines, ∃ b ∈ line.head?, Byte.isWord b) (current : Bytes) :
    joinLines current lines = finished current ++ lines.map Bytes.trim := by
  induction lines generalizing current with
  | nil => simp [joinLines]
  | cons line lines ih =>
    obtain ⟨hline, hlines⟩ := List.forall_mem_cons.mp h
    obtain ⟨hnot, hopens⟩ := opens_of_isWord hline
    have hfinished : finished (Bytes.trim line) = [Bytes.trim line] :=
      if_neg fun hempty => hnot (by rw [ignored, hempty]; rfl)
    rw [joinLines_opens hnot hopens, ih hlines, hfinished]
    rfl

/-! ### Splitting a rule -/

theorem arrow_eq_cons : arrow = [Byte.less, Byte.minus] := by decide

theorem rule_tight {rule : Bytes} (hrule : (Token.word rule).Regular) (gap : Bytes) :
    Bytes.Tight (rule ++ gap ++ arrow) :=
  (Bytes.tight_of_forall hrule.1 fun b hb => Token.not_isSpace_of_isWord (hrule.2 b hb)).append
    (Bytes.tight_of_forall (by decide) (List.any_eq_false.mp (by decide))) gap

/-- The line of a rule is split at its arrow. -/
theorem splitRule?_rule {rule gap : Bytes} (hrule : (Token.word rule).Regular)
    (hgap : ∀ b ∈ gap, Byte.isSpace b) (rest : Bytes) :
    splitRule? (rule ++ (gap ++ (arrow ++ rest)))
      = if (rest.dropWhile Byte.isSpace).any Byte.isLineEnd then none
        else some (rule, Bytes.trim (rest.dropWhile Byte.isSpace)) := by
  have harrow : arrow ++ rest = Byte.less :: Byte.minus :: rest := by
    rw [arrow_eq_cons]
    rfl
  have hname : (rule ++ (gap ++ (arrow ++ rest))).takeWhile Byte.isWord = rule := by
    refine Token.takeWhile_isWord_append hrule.2 ?_
    cases gap with
    | nil => rw [harrow]; exact Token.stops_cons (by decide) _
    | cons b gap =>
      exact Token.stops_cons (fun hword => Token.not_isSpace_of_isWord hword (hgap b (by simp))) _
  have hrest : ((rule ++ (gap ++ (arrow ++ rest))).drop rule.length).dropWhile Byte.isSpace
      = Byte.less :: Byte.minus :: rest := by
    rw [List.drop_left, List.dropWhile_append_of_pos hgap, harrow,
      List.dropWhile_cons_of_neg (by decide)]
  have hempty : rule.isEmpty = false := List.isEmpty_eq_false_iff.mpr hrule.1
  simp only [splitRule?, hname, hrest]
  change (if rule.isEmpty || _ then none else some (rule, Bytes.trim _)) = _
  rw [hempty, Bool.false_or]

end Grammar

namespace Token

variable {bs more : Bytes} {ts : List Token}

theorem tokenizes_trimEnd : Tokenizes (Bytes.trimEnd bs) ts ↔ Tokenizes bs ts := by
  obtain ⟨back, hback, heq⟩ := Bytes.trimEnd_spec bs
  rw [← tokenizes_append_gap hback, ← heq]

/-- In front of the first token of a text stands white space of one kind only. -/
theorem Tokenizes.dropWhile_isSpace (h : Tokenizes bs ts) (hmore : ts = [] → more = []) :
    ∃ front back, (∀ b ∈ front, Byte.isBlank b) ∧ bs = front ++ back
      ∧ (bs ++ more).dropWhile Byte.isSpace = back ++ more := by
  have hspace : ∀ b, Byte.isBlank b → Byte.isSpace b := fun b hb =>
    by_contra fun hnot => Bytes.not_isBlank hnot hb
  cases h with
  | nil hgap =>
    refine ⟨bs, [], hgap, by simp, ?_⟩
    rw [hmore rfl, List.append_nil, List.append_nil, List.dropWhile_eq_nil_iff]
    exact fun b hb => hspace b (hgap b hb)
  | @cons gap rest t ts hgap ht hrest h =>
    refine ⟨gap, t.spelling ++ rest, hgap, rfl, ?_⟩
    obtain ⟨b, hb, hnot⟩ := (regular_iff_wellFormed.mpr ht).tight.head
    have hne := (regular_iff_wellFormed.mpr ht).tight.ne_nil
    rw [List.append_assoc, List.dropWhile_append_of_pos fun b hb => hspace b (hgap b hb)]
    refine Bytes.dropWhile_eq_self fun c hc => ?_
    rw [List.append_assoc, List.head?_append_of_ne_nil _ hne] at hc
    exact Option.some.inj (hb.symm.trans hc) ▸ hnot

end Token

namespace Grammar

/-- A rule with a pattern in front of what is carried: its line is passed over if a line end is carried,
else it is a rule whose pattern has the tokens of both. -/
theorem splitRule?_of_tokenizes {rule gap source more : Bytes} {ts : List Token}
    (hrule : (Token.word rule).Regular) (hgap : ∀ b ∈ gap, Byte.isSpace b)
    (hline : ∀ b ∈ source, ¬ Byte.isLineEnd b) (htokens : Token.Tokenizes source ts)
    (hmore : ts = [] → more = []) :
    ∃ pattern, (∀ us, Token.Tokenizes pattern us ↔ Token.Tokenizes (source ++ more) us)
      ∧ splitRule? (rule ++ gap ++ arrow ++ source ++ more)
        = if more.any Byte.isLineEnd then none else some (rule, pattern) := by
  obtain ⟨front, back, hfront, rfl, hdrop⟩ := htokens.dropWhile_isSpace hmore
  have hback : back.any Byte.isLineEnd = false :=
    List.any_eq_false.mpr fun b hb => hline b (List.mem_append_right _ hb)
  refine ⟨Bytes.trim (back ++ more), fun us => ?_, ?_⟩
  · rw [Token.tokenizes_trim, List.append_assoc, Token.tokenizes_gap_append hfront]
  · rw [List.append_assoc, List.append_assoc, List.append_assoc, splitRule?_rule hrule hgap, hdrop,
      List.any_append, hback, Bool.false_or]

/-! ### Compiling without a log -/

/-- Adds the rule of a logical line, unless its pattern cannot be read. -/
def addLine? (g : Grammar) (line : Bytes) : Option Grammar :=
  match splitRule? line with
  | none => some (g.addNote (.skippedLine line))
  | some (name, pattern) => (Expr.read pattern).toOption.map (g.withRule name)

theorem addLine?_of_none {g : Grammar} {line : Bytes} (h : splitRule? line = none) :
    addLine? g line = some (g.addNote (.skippedLine line)) := by
  unfold addLine?
  rw [h]

theorem addLine?_of_some {g : Grammar} {line name pattern : Bytes}
    (h : splitRule? line = some (name, pattern)) :
    addLine? g line = (Expr.read pattern).toOption.map (g.withRule name) := by
  unfold addLine?
  rw [h]

theorem toOption_addLine (g : Grammar) (line : Bytes) (log : Log) :
    ((addLine g line).run.run log).1.toOption = addLine? g line := by
  cases hsplit : splitRule? line with
  | none =>
    unfold addLine addLine?
    simp only [hsplit]
    rfl
  | some r =>
    obtain ⟨name, pattern⟩ := r
    cases hread : Expr.read pattern with
    | error e =>
      unfold addLine addLine?
      simp only [hsplit, hread]
      rfl
    | ok e =>
      obtain ⟨log', hadd⟩ := addLine_of_read (g := g) hsplit hread log
      unfold addLine?
      simp only [hadd, hsplit, hread]
      rfl

theorem toOption_foldlM (g : Grammar) (lines : List Bytes) (log : Log) :
    ((lines.foldlM addLine g).run.run log).1.toOption = lines.foldlM addLine? g := by
  induction lines generalizing g log with
  | nil => rfl
  | cons line lines ih =>
    rw [List.foldlM_cons, List.foldlM_cons, ← toOption_addLine g line log]
    cases hline : (addLine g line).run.run log with
    | mk r log' =>
      cases r with
      | error e =>
        rw [ExceptT.run_bind, StateT.run_bind, hline]
        rfl
      | ok g' =>
        rw [build_bind_of_ok hline]
        exact ih g' log'

/-- The grammar of a text is built line by line, whatever the log holds. -/
theorem toOption_compile (text name : Bytes) (log : Log) :
    ((compile text name).run.run log).1.toOption = (logicalLines text).foldlM addLine? { name } := by
  rw [← toOption_foldlM _ _ log, compile]
  cases hlines : ((logicalLines text).foldlM addLine { name }).run.run log with
  | mk r log' =>
    cases r with
    | error e =>
      rw [ExceptT.run_bind, StateT.run_bind, hlines]
      rfl
    | ok g =>
      rw [build_bind_of_ok hlines]
      rfl

/-! ### Notes -/

theorem define_notes (g : Grammar) (notes : List Note) (r : Rule) :
    define { g with notes } r = { g.define r with notes } := by
  unfold define
  dsimp only
  generalize (if r.nodeType.isEmpty then { r with nodeType := r.name } else r) = r'
  rw [show find? { g with notes } r'.name = g.find? r'.name from rfl]
  split <;> rfl

/-- A line adds to a grammar and to its notes, and never looks at them. -/
theorem addLine?_notes (g : Grammar) (line : Bytes) :
    ∃ r : Option (Grammar × List Note), ∀ notes,
      addLine? { g with notes } line = r.map fun r => { r.1 with notes := notes ++ r.2 } := by
  unfold addLine?
  cases splitRule? line with
  | none => exact ⟨some (g, [.skippedLine line]), fun notes => rfl⟩
  | some r =>
    obtain ⟨name, pattern⟩ := r
    dsimp only
    cases Expr.read pattern with
    | error e => exact ⟨none, fun notes => rfl⟩
    | ok e =>
      refine ⟨some (g.add name e, if e.usesReserved then [.reservedToken name] else []), fun notes => ?_⟩
      refine congrArg some ?_
      dsimp only
      rw [withRule]
      split
      · exact define_notes g _ _
      · rw [List.append_nil]
        exact define_notes g _ _

/-- Notes are only ever added. -/
theorem foldlM_notes (g : Grammar) (lines : List Bytes) :
    ∃ r : Option (Grammar × List Note), ∀ notes,
      lines.foldlM addLine? { g with notes } = r.map fun r => { r.1 with notes := notes ++ r.2 } := by
  induction lines generalizing g with
  | nil => exact ⟨some (g, []), fun notes => by simp⟩
  | cons line lines ih =>
    obtain ⟨r, hr⟩ := addLine?_notes g line
    cases r with
    | none =>
      refine ⟨none, fun notes => ?_⟩
      rw [List.foldlM_cons, hr]
      rfl
    | some r =>
      obtain ⟨s, hs⟩ := ih r.1
      refine ⟨s.map fun s => (s.1, r.2 ++ s.2), fun notes => ?_⟩
      rw [List.foldlM_cons, hr, Option.map_some, Option.map_map]
      refine (hs _).trans (congrArg (Option.map · s) (funext fun s => ?_))
      rw [Function.comp, List.append_assoc]

end Grammar

end Packrat
