import Packrat.Proofs.Grammar.LogicalLines
import Mathlib.Data.List.Induction

/-!
What a configuration means.

The rules of a configuration are written out as a text and compiled from it.  That gives what its list of
rules says (`Grammar.Config.build_means`): every rule is added in order, with the expression that its pattern
is read as, and nothing is passed over.  A name that is listed again keeps the place it has, and the pattern
listed last is the one it stands for (`Grammar.names_add`, `Grammar.pattern?_add`).
-/

namespace Packrat

namespace Grammar

variable {g : Grammar} {name : Bytes} {e : Expr}

/-! ### Adding rules -/

theorem names_add (g : Grammar) (name : Bytes) (e : Expr) :
    (g.add name e).names = if name ∈ g.names then g.names else g.names ++ [name] := by
  have hdeclares : g.declares name ↔ name ∈ g.names := by
    rw [declares, Option.isSome_iff_ne_none, Ne, find?_eq_none_iff, not_not]
  exact (names_define g _).trans (if_congr hdeclares rfl rfl)

theorem find?_eq_names (g : Grammar) (name : Bytes) : g.find? name = g.names.findIdx? (· == name) := by
  rw [names, List.findIdx?_map, ← List.findIdx?_toArray, Array.toArray_toList]
  rfl

/-- The rule found under a name has it. -/
theorem name_of_find? {id : Nat} (h : g.find? name = some id) :
    ∃ r, g.rules[id]? = some r ∧ r.name = name := by
  obtain ⟨hlt, hname, -⟩ := Array.findIdx?_eq_some_iff_getElem.mp h
  exact ⟨g.rules[id], Array.getElem?_eq_getElem hlt, beq_iff_eq.mp hname⟩

/-- A rule that is added is the one found under its name, and no other name is affected. -/
theorem pattern?_add (g : Grammar) (name : Bytes) (e : Expr) (other : Bytes) :
    (g.add name e).pattern? other = if other = name then some e else g.pattern? other := by
  cases hfind : g.find? name with
  | none =>
    have hnew : name ∉ g.names := find?_eq_none_iff.mp hfind
    have hat : (g.add name e).find? other
        = (g.find? other).or (if name == other then some g.rules.size else none) := by
      rw [find?_eq_names, names_add, if_neg hnew, List.findIdx?_append, ← find?_eq_names]
      cases hlast : name == other <;> simp [List.findIdx?_cons, hlast, names]
    rw [pattern?, hat, add_of_find?_eq_none hfind]
    rcases eq_or_ne other name with rfl | hother
    · rw [hfind, Option.none_or, beq_self_eq_true, if_pos rfl, Option.bind_some, Array.getElem?_push_size,
        if_pos rfl]
      rfl
    · have hlast : ¬ (name == other) = true := fun hlast => hother (beq_iff_eq.mp hlast).symm
      rw [if_neg hother, if_neg hlast, Option.or_none, pattern?]
      refine Option.bind_congr fun id hid => ?_
      obtain ⟨r, hr, -⟩ := name_of_find? hid
      obtain ⟨hlt, -⟩ := Array.getElem?_eq_some_iff.mp hr
      rw [Array.getElem?_push_lt hlt, Array.getElem?_eq_getElem hlt]
  | some id =>
    obtain ⟨r, hr, hname⟩ := name_of_find? hfind
    obtain ⟨hlt, -⟩ := Array.getElem?_eq_some_iff.mp hr
    have hold : name ∈ g.names := by
      by_contra hnew
      rw [find?_eq_none_iff.mpr hnew] at hfind
      cases hfind
    have hat : (g.add name e).find? other = g.find? other := by
      rw [find?_eq_names, names_add, if_pos hold, ← find?_eq_names]
    rw [pattern?, hat, add_of_find?_eq_some hfind]
    rcases eq_or_ne other name with rfl | hother
    · rw [hfind, Option.bind_some, Array.getElem?_setIfInBounds_self_of_lt hlt, if_pos rfl]
      rfl
    · rw [if_neg hother, pattern?]
      refine Option.bind_congr fun i hi => ?_
      have hne : id ≠ i := by
        intro heq
        obtain ⟨r', hr', hname'⟩ := name_of_find? hi
        rw [← heq, hr, Option.some.injEq] at hr'
        exact hother (by rw [← hname', ← hr', hname])
      rw [Array.getElem?_setIfInBounds_ne hne]

theorem name_add (g : Grammar) (name : Bytes) (e : Expr) : (g.add name e).name = g.name := by
  unfold add define
  dsimp only
  split <;> rfl

/-! ### The rules of a configuration -/

/-- A list of rules, each one added with the expression its pattern is read as. -/
def addRules (g : Grammar) (rules : List (Bytes × Bytes)) : Except PatternError Grammar :=
  rules.foldlM (fun g r => do return g.add r.1 (← Expr.read r.2)) g

namespace Config

/-- The line of a rule in the text of a configuration. -/
def line (r : Bytes × Bytes) : Bytes := r.1 ++ Bytes.ascii " <- " ++ r.2

/-- A rule as a configuration may list it: under a word, and with a pattern on one line that can be read. -/
structure Valid (r : Bytes × Bytes) : Prop where
  name : (Token.word r.1).Regular
  pattern : ∃ e, Expr.read r.2 = .ok e
  line : ∀ b ∈ r.2, ¬ Byte.isLineEnd b

/-- What a configuration says about its grammar. -/
structure Means (c : Config) (g : Grammar) : Prop where
  rules : ∃ d, addRules { name := c.name } c.rules = .ok d ∧ g.rules = d.rules
  /-- A name that is listed again keeps its place, -/
  names : g.names = (c.rules.map (·.1)).eraseDups
  /-- and stands for the pattern that is listed last. -/
  patterns : ∀ name, g.pattern? name
    = (c.rules.reverse.lookup name).bind fun source => (Expr.read source).toOption
  notes : ∀ line, .skippedLine line ∉ g.notes
  name : g.name = c.name
  start : g.chosenStart = some c.start
  skipsIgnored : g.skipsIgnored = c.skipsIgnored
  comments : c.comments.map Comment.read? = g.comments.map some

variable {c : Config} {r : Bytes × Bytes} {rules : List (Bytes × Bytes)}

/-- The logical lines of a configuration are the lines of its rules. -/
theorem logicalLines_text (hrules : ∀ r ∈ c.rules, Valid r) :
    logicalLines c.text = c.rules.map fun r => Bytes.trim (line r) := by
  have htext : c.text = (c.rules.map line).flatMap fun l => l ++ [Byte.newline] := by
    rw [text, List.flatMap_map]
    rfl
  have hnewline : ∀ l ∈ c.rules.map line, ∀ b ∈ l, b ≠ Byte.newline := by
    rintro l hl b hb rfl
    obtain ⟨r, hr, rfl⟩ := List.mem_map.mp hl
    have hvalid := hrules r hr
    rcases List.mem_append.mp hb with hb | hb
    · rcases List.mem_append.mp hb with hb | hb
      · exact absurd (hvalid.name.2 _ hb) (by decide)
      · exact absurd hb (by decide)
    · exact hvalid.line _ hb (by decide)
  have hopens : ∀ l ∈ c.rules.map line, ∃ b ∈ l.head?, Byte.isWord b := by
    intro l hl
    obtain ⟨r, hr, rfl⟩ := List.mem_map.mp hl
    have hname := (hrules r hr).name
    refine ⟨_, ?_, hname.2 _ (List.head_mem hname.1)⟩
    rw [line, List.append_assoc, List.head?_append_of_ne_nil _ hname.1]
    exact List.head?_eq_some_head hname.1
  rw [logicalLines, htext, Bytes.lines_flatMap hnewline, joinLines_of_opens hopens, List.map_map]
  rfl

/-- The line of a rule is read as the rule that was listed. -/
theorem addLine?_line (h : Valid r) (hread : Expr.read r.2 = .ok e) (g : Grammar) :
    addLine? g (Bytes.trim (line r)) = some (g.withRule r.1 e) := by
  have hblank : ∀ b ∈ [Byte.blank], Byte.isBlank b := List.forall_mem_singleton.mpr (by decide)
  have hspace : ∀ b ∈ [Byte.blank], Byte.isSpace b := List.forall_mem_singleton.mpr (by decide)
  obtain ⟨ts, hts⟩ := Expr.tokenizes_of_read hread
  have htokens : Token.Tokenizes (Bytes.trimEnd ([Byte.blank] ++ r.2)) ts :=
    Token.tokenizes_trimEnd.mpr ((Token.tokenizes_gap_append hblank).mpr hts)
  have hline : ∀ b ∈ Bytes.trimEnd ([Byte.blank] ++ r.2), ¬ Byte.isLineEnd b := fun b hb => by
    rcases List.mem_append.mp (Bytes.mem_of_mem_trimEnd hb) with hb | hb
    · rw [List.mem_singleton.mp hb]
      decide
    · exact h.line b hb
  obtain ⟨pattern, hpattern, hsplit⟩ :=
    splitRule?_of_tokenizes h.name hspace hline htokens fun _ => (rfl : ([] : Bytes) = [])
  have htrim : Bytes.trim (line r)
      = r.1 ++ [Byte.blank] ++ arrow ++ Bytes.trimEnd ([Byte.blank] ++ r.2) ++ [] := by
    rw [List.append_nil, ← (rule_tight h.name [Byte.blank]).trim_append, line,
      show Bytes.ascii " <- " = [Byte.blank] ++ arrow ++ [Byte.blank] by decide]
    simp only [List.append_assoc]
  rw [htrim, addLine?_of_some hsplit, Expr.read_of_tokens (fun us hus => ?_) hread]
  · rfl
  · rw [hpattern, List.append_nil]
    exact Token.tokenizes_trimEnd.mpr ((Token.tokenizes_gap_append hblank).mpr hus)

/-- The lines of rules are added as the rules, and none of them is passed over. -/
theorem foldlM_lines (hrules : ∀ r ∈ rules, Valid r) (g : Grammar) {notes : List Note}
    (hnotes : ∀ line, .skippedLine line ∉ notes) :
    ∃ d notes', addRules g rules = .ok d ∧ (∀ line, .skippedLine line ∉ notes')
      ∧ (rules.map fun r => Bytes.trim (line r)).foldlM addLine? { g with notes }
        = some { d with notes := notes' } := by
  induction rules generalizing g notes with
  | nil => exact ⟨g, notes, rfl, hnotes, rfl⟩
  | cons r rules ih =>
    obtain ⟨hr, hrules⟩ := List.forall_mem_cons.mp hrules
    obtain ⟨e, hread⟩ := hr.pattern
    obtain ⟨more, hmore, hadd⟩ : ∃ more, (∀ line, .skippedLine line ∉ more)
        ∧ withRule { g with notes } r.1 e = { g.add r.1 e with notes := more } := by
      unfold withRule
      split
      · refine ⟨notes ++ [.reservedToken r.1], by simpa using hnotes, ?_⟩
        exact define_notes g (notes ++ [.reservedToken r.1]) _
      · exact ⟨notes, hnotes, define_notes g notes _⟩
    obtain ⟨d, notes', hd, hnotes', hlines⟩ := ih hrules (g.add r.1 e) hmore
    refine ⟨d, notes', ?_, hnotes', ?_⟩
    · rw [addRules, List.foldlM_cons, hread]
      exact hd
    · rw [List.map_cons, List.foldlM_cons, addLine?_line hr hread, hadd]
      exact hlines

/-- The rules that are added: each name once, in the order in which the names come up, and with the pattern
that is listed last. -/
theorem of_addRules {name : Bytes} {d : Grammar} (h : addRules { name } rules = .ok d) :
    d.name = name ∧ d.names = (rules.map (·.1)).eraseDups ∧ ∀ other, d.pattern? other
      = (rules.reverse.lookup other).bind fun source => (Expr.read source).toOption := by
  -- the last rule is the one that decides, so the induction is on the list from its end
  induction rules using List.reverseRecOn generalizing d with
  | nil =>
    obtain rfl : { name } = d := Except.ok.inj h
    exact ⟨rfl, rfl, fun other => by simp [pattern?, find?]⟩
  | append_singleton rules r ih =>
    rw [addRules, List.foldlM_append] at h
    cases hinit : addRules { name } rules with
    | error fault =>
      rw [addRules] at hinit
      rw [hinit] at h
      cases h
    | ok mid =>
      obtain ⟨hname, hnames, hpatterns⟩ := ih hinit
      cases hread : Expr.read r.2 with
      | error fault =>
        rw [addRules] at hinit
        rw [hinit] at h
        simp only [List.foldlM_cons, hread] at h
        cases h
      | ok e =>
        obtain rfl : mid.add r.1 e = d := by
          rw [addRules] at hinit
          rw [hinit] at h
          simp only [List.foldlM_cons, hread] at h
          exact Except.ok.inj h
        refine ⟨(name_add mid r.1 e).trans hname, ?_, fun other => ?_⟩
        · rw [names_add, hnames, List.map_append, List.eraseDups_append, List.map_singleton]
          by_cases hmem : r.1 ∈ rules.map (·.1)
          · rw [if_pos (List.mem_eraseDups.mpr hmem)]
            simp [List.removeAll, hmem]
          · rw [if_neg (mt List.mem_eraseDups.mp hmem)]
            simp [List.removeAll, hmem, List.eraseDups_cons]
        · rw [pattern?_add, List.reverse_append, List.reverse_singleton, List.singleton_append,
            List.lookup_cons, hpatterns]
          by_cases hother : other = r.1
          · rw [if_pos hother, beq_iff_eq.mpr hother]
            exact (congrArg Except.toOption hread).symm
          · rw [if_neg hother, beq_eq_false_iff_ne.mpr hother]

theorem readComments_eq_ok {sources : List Bytes} (h : ∀ s ∈ sources, (Comment.read? s).isSome) :
    ∃ cs, readComments sources = .ok cs ∧ sources.map Comment.read? = cs.map some := by
  induction sources with
  | nil => exact ⟨[], rfl, rfl⟩
  | cons s sources ih =>
    obtain ⟨hs, hsources⟩ := List.forall_mem_cons.mp h
    obtain ⟨k, hk⟩ := Option.isSome_iff_exists.mp hs
    obtain ⟨cs, hcs, hmap⟩ := ih hsources
    exact ⟨k :: cs, by rw [readComments, hk, hcs]; rfl, by rw [List.map_cons, List.map_cons, hk, hmap]⟩

/-- **A configuration means its rules.** If its comment patterns are regular expressions and its rules can be
read, a configuration gives the grammar it describes. -/
theorem build_means (c : Config) (hne : c.rules ≠ []) (hrules : ∀ r ∈ c.rules, Valid r)
    (hcomments : ∀ s ∈ c.comments, (Comment.read? s).isSome) (log : Log) :
    ∃ g, (c.build.run.run log).1 = .ok g ∧ c.Means g := by
  obtain ⟨d, notes, hd, hnotes, hlines⟩ := foldlM_lines hrules { name := c.name }
    (fun line => List.not_mem_nil : ∀ line, Note.skippedLine line ∉ [])
  obtain ⟨cs, hcs, hmap⟩ := readComments_eq_ok hcomments
  obtain ⟨hname, hnames, hpatterns⟩ := of_addRules hd
  have hcompile := toOption_compile c.text c.name log
  rw [logicalLines_text hrules, hlines] at hcompile
  refine ⟨{ d with notes, chosenStart := some c.start, skipsIgnored := c.skipsIgnored, comments := cs }, ?_,
    ⟨d, hd, rfl⟩, hnames, hpatterns, hnotes, hname, rfl, rfl, hmap⟩
  rw [build, if_neg (by simpa using hne)]
  cases hrun : (compile c.text c.name).run.run log with
  | mk r log' =>
    rw [hrun] at hcompile
    cases r with
    | error fault => cases hcompile
    | ok g =>
      obtain rfl : g = { d with notes } := Option.some.inj hcompile
      rw [build_bind_of_ok hrun]
      change withComments _ c.comments = _
      rw [withComments, hcs]
      rfl

/-- A configuration whose patterns look like a remark, like another arrow, and like a continuation, and whose
first rule is listed again. -/
def remarkable : Config :=
  { rules := [(Bytes.ascii "a", Bytes.ascii "'#'"), (Bytes.ascii "b", Bytes.ascii "  a '<-' "),
      (Bytes.ascii "a", Bytes.ascii "'|' / b*")] }

theorem build_remarkable_means :
    ∃ g, (remarkable.build.run.run #[]).1 = .ok g ∧ remarkable.Means g := by
  have hfirst : Valid (Bytes.ascii "a", Bytes.ascii "'#'") :=
    ⟨⟨by decide, List.all_eq_true.mp (by decide)⟩, Expr.exists_of_isSome (by decide +kernel),
      List.any_eq_false.mp (by decide)⟩
  have hsecond : Valid (Bytes.ascii "b", Bytes.ascii "  a '<-' ") :=
    ⟨⟨by decide, List.all_eq_true.mp (by decide)⟩, Expr.exists_of_isSome (by decide +kernel),
      List.any_eq_false.mp (by decide)⟩
  have hthird : Valid (Bytes.ascii "a", Bytes.ascii "'|' / b*") :=
    ⟨⟨by decide, List.all_eq_true.mp (by decide)⟩, Expr.exists_of_isSome (by decide +kernel),
      List.any_eq_false.mp (by decide)⟩
  have hcomment : (Comment.read? (Bytes.ascii "//.*")).isSome := by decide +kernel
  exact build_means remarkable (List.cons_ne_nil _ _)
    (List.forall_mem_cons.mpr ⟨hfirst, List.forall_mem_cons.mpr ⟨hsecond,
      List.forall_mem_singleton.mpr hthird⟩⟩) (List.forall_mem_singleton.mpr hcomment) #[]

end Config

end Grammar

end Packrat
