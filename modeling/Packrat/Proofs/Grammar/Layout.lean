import Packrat.Proofs.Grammar.LogicalLines

/-!
Rules that are written on several lines.

A pattern is laid out by cutting it between its tokens: the first piece stays behind the arrow, and each
later one stands on an indented line of its own (`Grammar.LaidOut`).  Such a line is never taken for a
remark or for a rule, and it adds its piece to the rule it belongs to, so the rule keeps its tokens
(`Grammar.LaidOut.joinLines`).

That makes the layout of a text irrelevant (`Grammar.compile_laidOut`), but for one thing.  A line that
follows the rule and continues it may hold a carriage return; then the logical line is no rule in either
layout, and the note that it was passed over quotes it as it was laid out.
-/

namespace Packrat

namespace Token

variable {t : Token} {bs : Bytes} {ts : List Token} {pieces : List Bytes} {tss : List (List Token)}

/-- No token begins like a remark, or with the bar that stands for a slash. -/
theorem WellFormed.head_spelling (ht : t.WellFormed) :
    ∀ b ∈ t.spelling.head?, b ≠ Byte.hash ∧ b ≠ Byte.bar := by
  intro b hb
  cases t with
  | quoted q body =>
    obtain rfl : q = b := Option.some.inj hb
    rcases ht.1 with rfl | rfl <;> decide
  | bracket body =>
    obtain rfl : Byte.openBracket = b := Option.some.inj hb
    decide
  | label name =>
    obtain rfl : Byte.atSign = b := Option.some.inj hb
    decide
  | word name =>
    have hword := ht.2 b (List.mem_of_mem_head? hb)
    exact ⟨ne_of_isWord hword (by decide), ne_of_isWord hword (by decide)⟩
  | mark c =>
    obtain rfl : c = b := Option.some.inj hb
    have hmarks : (marks.all fun c => c != Byte.hash && c != Byte.bar) = true := by decide
    simpa using List.all_eq_true.mp hmarks c ht

/-- What is left of a text with tokens when it is trimmed begins with a token. -/
theorem Tokenizes.head_trim (h : Tokenizes bs ts) :
    ∀ b ∈ (Bytes.trim bs).head?, b ≠ Byte.hash ∧ b ≠ Byte.bar := by
  intro b hb
  cases h with
  | nil hgap =>
    rw [Bytes.trim_eq_nil_iff.mpr hgap] at hb
    cases hb
  | cons hgap ht hrest h =>
    have htight := (regular_iff_wellFormed.mpr ht).tight
    rw [Bytes.trim_gap_append hgap, htight.trim_append, List.head?_append_of_ne_nil _ htight.ne_nil] at hb
    exact ht.head_spelling b hb

theorem separate_spaced (pieces : List Bytes) : Separate (Grammar.spaced pieces) := by
  intro b hb
  cases pieces with
  | nil => cases hb
  | cons piece pieces =>
    obtain rfl : Byte.blank = b := Option.some.inj hb
    decide

/-- Pieces that are trimmed and put behind one another with blanks between them keep their tokens. -/
theorem tokenizes_spaced (h : List.Forall₂ Tokenizes pieces tss) :
    Tokenizes (Grammar.spaced (pieces.map Bytes.trim)) tss.flatten := by
  induction h with
  | nil => exact .nil (by simp [Grammar.spaced])
  | @cons piece ts pieces tss hpiece _ ih =>
    rw [List.map_cons, Grammar.spaced_cons, List.flatten_cons]
    refine Tokenizes.append ?_ (separate_spaced _) ih
    have hblank : ∀ b ∈ [Byte.blank], Byte.isBlank b := List.forall_mem_singleton.mpr (by decide)
    exact (tokenizes_gap_append hblank).mpr (tokenizes_trim.mpr hpiece)

end Token

namespace Grammar

/-- A line that goes on with a piece of a pattern: the piece is indented, and a slash that it begins with
may be written as a bar. -/
structure Written (piece line : Bytes) : Prop where
  not_blank : ∃ b ∈ piece, ¬ Byte.isBlank b
  no_arrow : ¬ Bytes.occurs arrow piece
  indented : ∃ indent, indent ≠ [] ∧ (∀ b ∈ indent, b = Byte.blank ∨ b = Byte.tab)
    ∧ (line = indent ++ piece ∨ ∃ gap rest, (∀ b ∈ gap, Byte.isBlank b)
      ∧ piece = gap ++ Byte.slash :: rest ∧ line = indent ++ (gap ++ Byte.bar :: rest))

/-- A pattern that is cut between its tokens: into a first piece, and pieces on lines of their own. -/
structure LaidOut (pattern first : Bytes) (pieces lines : List Bytes) : Prop where
  whole : (first :: pieces).flatten = pattern
  cuts : ∀ i ≤ pieces.length + 1, Token.Boundary pattern ((first :: pieces).take i).flatten.length
  written : List.Forall₂ Written pieces lines

variable {rule gap pattern first piece line text text' : Bytes}
  {pieces lines before after : List Bytes} {ts : List Token}

/-- The line of a piece is no remark, it continues a rule, and what it adds is the piece. -/
theorem Written.adds (h : Written piece line) (htokens : Token.Tokenizes piece ts) :
    (¬ ignored line ∧ continues line (Bytes.trim line))
      ∧ continuation (Bytes.trim line) = Bytes.trim piece := by
  obtain ⟨indent, hne, hindent, hwritten⟩ := h.indented
  have hblank : ∀ b ∈ indent, Byte.isBlank b := fun b hb => by
    rcases hindent b hb with rfl | rfl <;> decide
  have hspace : ∀ more, ((indent ++ more).head?.any fun b => Byte.isSpace b || b == Byte.bar) := by
    intro more
    obtain ⟨b, bs, rfl⟩ := List.exists_cons_of_ne_nil hne
    rcases hindent b List.mem_cons_self with rfl | rfl <;> rfl
  rcases hwritten with rfl | ⟨gap, rest, hgap, rfl, rfl⟩
  · have htrim : Bytes.trim (indent ++ piece) = Bytes.trim piece := Bytes.trim_gap_append hblank
    have hhead := htokens.head_trim
    have harrow : Bytes.occurs arrow (Bytes.trim piece) = false := by
      rw [Bool.eq_false_iff]
      intro hoccurs
      exact h.no_arrow (Bytes.occurs_iff_isInfix.mpr
        ((Bytes.occurs_iff_isInfix.mp hoccurs).trans (Bytes.isInfix_trim piece)))
    rw [continues, ignored, htrim, harrow, hspace]
    obtain ⟨b, bs, heq⟩ : ∃ b bs, Bytes.trim piece = b :: bs := List.exists_cons_of_ne_nil fun hnil => by
      obtain ⟨b, hb, hnot⟩ := h.not_blank
      exact hnot (Bytes.trim_eq_nil_iff.mp hnil b hb)
    rw [heq] at hhead ⊢
    obtain ⟨hhash, hbar⟩ := hhead b rfl
    refine ⟨⟨by simpa using hhash, rfl⟩, ?_⟩
    unfold continuation
    split
    · next hcons => exact absurd (List.cons.inj hcons).1 hbar
    · rfl
  · -- the bar stands where the slash of the piece stood
    have htrim (b : UInt8) (hb : ¬ Byte.isSpace b) :
        Bytes.trim (gap ++ b :: rest) = b :: Bytes.trimEnd rest :=
      (Bytes.trim_gap_append hgap).trans ((Bytes.tight_singleton hb).trim_append rest)
    have hline : Bytes.trim (indent ++ (gap ++ Byte.bar :: rest)) = Byte.bar :: Bytes.trimEnd rest :=
      (Bytes.trim_gap_append hblank).trans (htrim _ (by decide))
    have harrow : Bytes.occurs arrow (Byte.bar :: Bytes.trimEnd rest) = false := by
      rw [Bool.eq_false_iff]
      intro hoccurs
      rw [Bytes.occurs_iff_isInfix, arrow_eq_cons, List.infix_cons_iff] at hoccurs
      rcases hoccurs with hfirst | hinfix
      · exact absurd (List.cons_prefix_cons.mp hfirst).1 (by decide)
      · obtain ⟨back, -, heq⟩ := Bytes.trimEnd_spec rest
        refine h.no_arrow (Bytes.occurs_iff_isInfix.mpr (arrow_eq_cons ▸ hinfix.trans ?_))
        exact ⟨gap ++ [Byte.slash], back, by rw [List.append_assoc, ← heq]; simp⟩
    rw [continues, ignored, hline, harrow, hspace, htrim _ (by decide)]
    exact ⟨⟨by simpa using (by decide : Byte.bar ≠ Byte.hash), rfl⟩, rfl⟩

/-- The lines of the pieces add the pieces. -/
theorem adds_of_forall₂ {tss : List (List Token)} (h : List.Forall₂ Written pieces lines)
    (htokens : List.Forall₂ Token.Tokenizes pieces tss) :
    (∀ line ∈ lines, ¬ ignored line ∧ continues line (Bytes.trim line))
      ∧ (lines.map fun line => continuation (Bytes.trim line)) = pieces.map Bytes.trim := by
  induction h generalizing tss with
  | nil => exact ⟨nofun, rfl⟩
  | cons hline _ ih =>
    cases htokens with
    | cons hpiece hpieces =>
      obtain ⟨hthis, hadds⟩ := hline.adds hpiece
      obtain ⟨hthese, hmap⟩ := ih hpieces
      exact ⟨List.forall_mem_cons.mpr ⟨hthis, hthese⟩, by rw [List.map_cons, List.map_cons, hadds, hmap]⟩

/-- The line of a rule parts the logical lines around it, and takes what is carried behind it. -/
theorem joinLines_rule (hrule : (Token.word rule).Regular) (gap pattern : Bytes)
    (before after : List Bytes) :
    joinLines [] (before ++ (rule ++ gap ++ arrow ++ pattern) :: after)
      = joinLines [] before ++ joinLines (rule ++ gap ++ arrow ++ Bytes.trimEnd pattern) after := by
  have hhead : ∃ b ∈ (rule ++ gap ++ arrow ++ pattern).head?, Byte.isWord b := by
    refine ⟨_, ?_, hrule.2 _ (List.head_mem hrule.1)⟩
    rw [List.append_assoc, List.append_assoc, List.head?_append_of_ne_nil _ hrule.1]
    exact List.head?_eq_some_head hrule.1
  obtain ⟨hignored, hcontinues⟩ := opens_of_isWord hhead
  rw [joinLines_opening hignored hcontinues, (rule_tight hrule gap).trim_append]

/-- What the pieces of a pattern are joined to. -/
def joined (first : Bytes) (pieces : List Bytes) : Bytes :=
  Bytes.trimEnd first ++ spaced (pieces.map Bytes.trim)

namespace LaidOut

/-- Every piece has tokens of its own. -/
theorem tokens (h : LaidOut pattern first pieces lines) (htokens : Token.Tokenizes pattern ts) :
    ∃ us tss, ts = us ++ tss.flatten ∧ Token.Tokenizes first us
      ∧ List.Forall₂ Token.Tokenizes pieces tss := by
  obtain ⟨tss, hall, rfl⟩ := (h.whole.symm ▸ htokens).pieces (h.whole.symm ▸ h.cuts)
  obtain ⟨us, tss, hfirst, hpieces, rfl⟩ := List.forall₂_cons_left_iff.mp hall
  exact ⟨us, tss, List.flatten_cons, hfirst, hpieces⟩

theorem joined_lineEnd (h : LaidOut pattern first pieces lines)
    (hline : ∀ b ∈ pattern, ¬ Byte.isLineEnd b) : ∀ b ∈ joined first pieces, ¬ Byte.isLineEnd b := by
  intro b hb
  rcases List.mem_append.mp hb with hb | hb
  · exact hline b (h.whole ▸ List.mem_append_left _ (Bytes.mem_of_mem_trimEnd hb))
  · obtain ⟨_, hmem, hb⟩ := List.mem_flatMap.mp hb
    obtain ⟨piece, hpiece, rfl⟩ := List.mem_map.mp hmem
    rcases List.mem_cons.mp hb with rfl | hb
    · decide
    · refine hline b (h.whole ▸ List.mem_append_right _ ?_)
      exact List.mem_flatten.mpr ⟨piece, hpiece, (Bytes.isInfix_trim piece).subset hb⟩

/-- The pieces have the tokens of the pattern when they are joined. -/
theorem tokenizes_joined (h : LaidOut pattern first pieces lines) (htokens : Token.Tokenizes pattern ts) :
    Token.Tokenizes (joined first pieces) ts := by
  obtain ⟨us, tss, rfl, hfirst, hpieces⟩ := h.tokens htokens
  exact (Token.tokenizes_trimEnd.mpr hfirst).append (Token.separate_spaced _)
    (Token.tokenizes_spaced hpieces)

/-- A pattern without tokens has no second piece, since that would have tokens. -/
theorem joined_of_nil (h : LaidOut pattern first pieces lines) (htokens : Token.Tokenizes pattern []) :
    joined first pieces = Bytes.trimEnd pattern := by
  obtain ⟨us, tss, hnil, -, hpieces⟩ := h.tokens htokens
  obtain rfl : pieces = [] := by
    by_contra hne
    obtain ⟨piece, pieces, rfl⟩ := List.exists_cons_of_ne_nil hne
    obtain ⟨vs, tss, hpiece, -, rfl⟩ := List.forall₂_cons_left_iff.mp hpieces
    obtain ⟨line, lines, hwritten, -, rfl⟩ := List.forall₂_cons_left_iff.mp h.written
    obtain ⟨b, hb, hnot⟩ := hwritten.not_blank
    obtain ⟨-, rfl, -⟩ : us = [] ∧ vs = [] ∧ tss.flatten = [] := by simpa using hnil
    cases hpiece with
    | nil hgap => exact hnot (hgap b hb)
  rw [← h.whole]
  simp [joined, spaced]

/-- The logical line of the rule holds the pieces joined. -/
theorem joinLines (h : LaidOut pattern first pieces lines) (hrule : (Token.word rule).Regular)
    (gap : Bytes) (htokens : Token.Tokenizes pattern ts) (before after : List Bytes) :
    Grammar.joinLines [] (before ++ (rule ++ gap ++ arrow ++ first) :: (lines ++ after))
      = Grammar.joinLines [] before
        ++ Grammar.joinLines (rule ++ gap ++ arrow ++ joined first pieces) after := by
  obtain ⟨us, tss, -, -, hpieces⟩ := h.tokens htokens
  obtain ⟨hadds, hmap⟩ := adds_of_forall₂ h.written hpieces
  have hopen : rule ++ gap ++ arrow ++ Bytes.trimEnd first ≠ [] := by simp [hrule.1]
  rw [joinLines_rule hrule, joinLines_pieces hopen hadds, hmap, List.append_assoc, joined]

end LaidOut

/-- What is carried of lines of a text holds no line end but a carriage return. -/
theorem cr_of_carried (h : ∀ line ∈ lines, Byte.newline ∉ line)
    (hany : (spaced (carried lines)).any Byte.isLineEnd) : ∃ l ∈ carried lines, Byte.cr ∈ l := by
  have hcarried : ∀ l ∈ carried lines, Byte.newline ∉ l := by
    clear hany
    induction lines with
    | nil => exact List.forall_mem_nil _
    | cons line lines ih =>
      obtain ⟨hline, hlines⟩ := List.forall_mem_cons.mp h
      rw [carried]
      split
      · exact ih hlines
      split
      · refine List.forall_mem_cons.mpr ⟨fun hmem => hline ?_, ih hlines⟩
        refine (Bytes.isInfix_trim line).subset ?_
        unfold continuation at hmem
        split at hmem
        · next heq =>
          rw [heq]
          exact List.mem_cons_of_mem _ (List.mem_of_ne_of_mem (by decide) hmem)
        · exact hmem
      · exact List.forall_mem_nil _
  obtain ⟨b, hb, hend⟩ := List.any_eq_true.mp hany
  obtain ⟨l, hl, hb⟩ := List.mem_flatMap.mp hb
  rcases List.mem_cons.mp hb with rfl | hb
  · exact absurd hend (by decide)
  · simp only [Byte.isLineEnd, Bool.or_eq_true, beq_iff_eq] at hend
    rcases hend with rfl | rfl
    · exact ⟨l, hl, hb⟩
    · exact absurd hb (hcarried l hl)

/-- The same grammar, except that a note about a line that was passed over quotes another line. -/
def Requotes (line line' : Bytes) (g g' : Grammar) : Prop :=
  ∃ front back, g.notes = front ++ .skippedLine line :: back
    ∧ g' = { g with notes := front ++ .skippedLine line' :: back }

/-- **Layout.** The text of a grammar says the same when a rule is written on several lines, and when lines
that are left out are put in anywhere; except that a line behind the rule which continues it and holds a
carriage return makes of both layouts a line that is passed over, and the note about it quotes the layout.
-/
theorem compile_laidOut {e : Expr} (hrule : (Token.word rule).Regular)
    (hgap : ∀ b ∈ gap, Byte.isSpace b) (hread : Expr.read pattern = .ok e)
    (hline : ∀ b ∈ pattern, ¬ Byte.isLineEnd b) (hlaid : LaidOut pattern first pieces lines)
    (htext : Bytes.lines text = before ++ (rule ++ gap ++ arrow ++ pattern) :: after)
    (htext' : (Bytes.lines text').filter (fun line => !ignored line)
      = (before ++ (rule ++ gap ++ arrow ++ first) :: (lines ++ after)).filter fun line => !ignored line)
    (name : Bytes) (log log' : Log) :
    ((compile text' name).run.run log').1.toOption = ((compile text name).run.run log).1.toOption
      ∨ (∃ l ∈ carried after, Byte.cr ∈ l) ∧ ∃ g g',
        ((compile text name).run.run log).1.toOption = some g
          ∧ ((compile text' name).run.run log').1.toOption = some g'
          ∧ Requotes (rule ++ gap ++ arrow ++ Bytes.trimEnd pattern ++ spaced (carried after))
            (rule ++ gap ++ arrow ++ joined first pieces ++ spaced (carried after)) g g' := by
  obtain ⟨ts, htokens⟩ := Expr.tokenizes_of_read hread
  have hjoined := hlaid.tokenizes_joined htokens
  have hlong : ∀ z, rule ++ gap ++ arrow ++ z ≠ [] := by simp [hrule.1]
  rw [toOption_compile, toOption_compile, logicalLines, logicalLines, ← joinLines_filter, htext',
    joinLines_filter, hlaid.joinLines hrule gap htokens, htext, joinLines_rule hrule,
    joinLines_carried (hlong _), joinLines_carried (hlong _)]
  simp only [List.foldlM_append, List.foldlM_cons]
  cases (Grammar.joinLines [] before).foldlM addLine? { name } with
  | none => exact .inl rfl
  | some g =>
    by_cases hts : ts = []
    · exact .inl (by rw [hlaid.joined_of_nil (hts ▸ htokens)])
    have hmore : ts = [] → spaced (carried after) = [] := (absurd · hts)
    obtain ⟨p, hp, hsplit⟩ := splitRule?_of_tokenizes hrule hgap
      (fun b hb => hline b (Bytes.mem_of_mem_trimEnd hb)) (Token.tokenizes_trimEnd.mpr htokens) hmore
    obtain ⟨p', hp', hsplit'⟩ :=
      splitRule?_of_tokenizes hrule hgap (hlaid.joined_lineEnd hline) hjoined hmore
    by_cases hend : (spaced (carried after)).any Byte.isLineEnd
    · -- neither logical line is a rule, and the notes quote them
      rw [if_pos hend] at hsplit hsplit'
      generalize rule ++ gap ++ arrow ++ Bytes.trimEnd pattern ++ spaced (carried after) = quoted
        at hsplit ⊢
      generalize rule ++ gap ++ arrow ++ joined first pieces ++ spaced (carried after) = quoted'
        at hsplit' ⊢
      obtain ⟨r, hr⟩ := foldlM_notes g (Grammar.joinLines [] (behind after))
      simp only [Option.bind_eq_bind, Option.bind_some, addLine?_of_none hsplit,
        addLine?_of_none hsplit', addNote, hr]
      cases r with
      | none => exact .inl rfl
      | some r =>
        have hlines : ∀ line ∈ after, Byte.newline ∉ line := fun line hmem =>
          Bytes.not_mem_of_mem_lines (htext ▸ List.mem_append_right _ (List.mem_cons_of_mem _ hmem))
        have hquote (line : Bytes) : g.notes ++ [.skippedLine line] ++ r.2
            = g.notes ++ .skippedLine line :: r.2 := by rw [List.append_assoc, List.singleton_append]
        refine .inr ⟨cr_of_carried hlines hend, _, _, rfl, rfl, g.notes, r.2, hquote quoted, ?_⟩
        rw [← hquote quoted']
    · -- both logical lines are rules with the same tokens
      rw [if_neg hend] at hsplit hsplit'
      have htails : ∀ us, Token.Tokenizes p' us ↔ Token.Tokenizes p us := fun us => by
        rw [hp', hp, Token.tokenizes_append_iff hjoined (Token.separate_spaced _),
          Token.tokenizes_append_iff (Token.tokenizes_trimEnd.mpr htokens) (Token.separate_spaced _)]
      refine .inl ?_
      simp only [Option.bind_eq_bind, Option.bind_some, addLine?_of_some hsplit,
        addLine?_of_some hsplit', Expr.read_congr htails]

/-- A choice over two lines, with a remark between them and a blank line behind. -/
theorem compile_laidOut_choice :
    LaidOut (Bytes.ascii " 'x' / 'y'") (Bytes.ascii " 'x'") [Bytes.ascii " / 'y'"] [Bytes.ascii "   | 'y'"]
      ∧ ((compile (Bytes.ascii "a <- 'x'\n# remark\n   | 'y'\n\nb <- a\n") []).run.run #[]).1.toOption
        = ((compile (Bytes.ascii "a <- 'x' / 'y'\nb <- a\n") []).run.run #[]).1.toOption := by
  have hlaid : LaidOut (Bytes.ascii " 'x' / 'y'") (Bytes.ascii " 'x'") [Bytes.ascii " / 'y'"]
      [Bytes.ascii "   | 'y'"] :=
    ⟨by decide, by decide, .cons ⟨⟨Byte.slash, by decide⟩, by decide, [Byte.blank, Byte.blank],
      by decide, by simp, .inr ⟨Bytes.ascii " ", Bytes.ascii " 'y'", List.all_eq_true.mp (by decide),
        by decide, by decide⟩⟩ .nil⟩
  obtain ⟨e, hread⟩ : ∃ e, Expr.read (Bytes.ascii " 'x' / 'y'") = .ok e :=
    Expr.exists_of_isSome (by decide +kernel)
  have hrule : (Token.word (Bytes.ascii "a")).Regular := ⟨by decide, List.all_eq_true.mp (by decide)⟩
  have hgap : ∀ b ∈ Bytes.ascii " ", Byte.isSpace b := List.all_eq_true.mp (by decide)
  have htext : Bytes.lines (Bytes.ascii "a <- 'x' / 'y'\nb <- a\n")
      = [] ++ (Bytes.ascii "a" ++ Bytes.ascii " " ++ arrow ++ Bytes.ascii " 'x' / 'y'")
        :: [Bytes.ascii "b <- a"] := by decide
  have hline : ∀ b ∈ Bytes.ascii " 'x' / 'y'", ¬ Byte.isLineEnd b := List.any_eq_false.mp (by decide)
  refine ⟨hlaid, (compile_laidOut hrule hgap hread hline hlaid htext (by decide) [] #[]
    #[]).resolve_right ?_⟩
  rintro ⟨⟨l, hl, -⟩, -⟩
  rw [show carried [Bytes.ascii "b <- a"] = [] by decide] at hl
  cases hl

/-- Where a carriage return is carried, the note about the logical line shows how it was laid out: two blanks
in one layout, and one blank in the other. -/
theorem notes_laidOut_cr :
    LaidOut (Bytes.ascii " 'x'  'y'") (Bytes.ascii " 'x'") [Bytes.ascii "  'y'"] [Bytes.ascii "   'y'"]
      ∧ (Expr.read (Bytes.ascii " 'x'  'y'")).toOption.isSome
      ∧ Bytes.lines (Bytes.ascii "a <- 'x'  'y'\n \"\r\"\n")
        = [] ++ (Bytes.ascii "a" ++ Bytes.ascii " " ++ arrow ++ Bytes.ascii " 'x'  'y'")
          :: [Bytes.ascii " \"\r\""]
      ∧ Bytes.lines (Bytes.ascii "a <- 'x'\n   'y'\n \"\r\"\n")
        = [] ++ (Bytes.ascii "a" ++ Bytes.ascii " " ++ arrow ++ Bytes.ascii " 'x'")
          :: ([Bytes.ascii "   'y'"] ++ [Bytes.ascii " \"\r\""])
      ∧ ((compile (Bytes.ascii "a <- 'x'  'y'\n \"\r\"\n") []).run.run #[]).1.toOption.map (·.notes)
        = some [.skippedLine (Bytes.ascii "a <- 'x'  'y' \"\r\"")]
      ∧ ((compile (Bytes.ascii "a <- 'x'\n   'y'\n \"\r\"\n") []).run.run #[]).1.toOption.map (·.notes)
        = some [.skippedLine (Bytes.ascii "a <- 'x' 'y' \"\r\"")] := by
  refine ⟨⟨by decide, by decide, .cons ⟨⟨Byte.quote, by decide⟩, by decide, [Byte.blank], by decide,
    by simp, .inl (by decide)⟩ .nil⟩, by decide +kernel, by decide, by decide, by decide +kernel, by decide +kernel⟩

end Grammar

end Packrat
