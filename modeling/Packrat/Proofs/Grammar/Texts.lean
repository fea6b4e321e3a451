import Packrat.Grammar.Source
import Packrat.Proofs.Expr.Printing
import Mathlib.Data.List.Nodup

/-!
Compiling the text of a grammar.

A compiled grammar has rules that can be written on one line each (`Grammar.Compiled`).  The lines
of its text are its logical lines, and each of them is added as the rule it was printed from, with
the sequences of its pattern spliced.  So a compiled grammar is compiled again from its text, up to
that splicing (`Grammar.compile_text`).
-/

namespace Packrat

/-! ### Lines -/

namespace Bytes

theorem dropWhile_eq_self {p : UInt8 → Bool} {bs : Bytes} (h : ∀ b ∈ bs.head?, ¬ p b) :
    bs.dropWhile p = bs := by
  cases bs with
  | nil => rfl
  | cons b bs => exact List.dropWhile_cons_of_neg (h b rfl)

theorem Tight.dropWhile_isSpace {bs : Bytes} (h : bs.Tight) : bs.dropWhile Byte.isSpace = bs := by
  obtain ⟨b, hb, hnot⟩ := h.head
  exact dropWhile_eq_self fun c hc => Option.some.inj (hb.symm.trans hc) ▸ hnot

/-- There is nothing to trim off a tight text. -/
theorem Tight.trim {bs : Bytes} (h : bs.Tight) : Bytes.trim bs = bs := by
  obtain ⟨b, hb, hnot⟩ := h.head
  obtain ⟨c, hc, hnot'⟩ := h.last
  have hhead : ∀ a ∈ bs.head?, ¬ Byte.isBlank a := fun a ha =>
    Option.some.inj (hb.symm.trans ha) ▸ not_isBlank hnot
  have hlast : ∀ a ∈ bs.reverse.head?, ¬ Byte.isBlank a := fun a ha => by
    rw [List.head?_reverse] at ha
    exact Option.some.inj (hc.symm.trans ha) ▸ not_isBlank hnot'
  rw [Bytes.trim, dropWhile_eq_self hhead, dropWhile_eq_self hlast, List.reverse_reverse]

theorem lines_go_append {bs line : Bytes} (h : ∀ b ∈ bs, b ≠ Byte.newline) (rest : Bytes) :
    lines.go line (bs ++ Byte.newline :: rest) = (line.reverse ++ bs) :: lines.go [] rest := by
  induction bs generalizing line with
  | nil => simp [lines.go]
  | cons b bs ih =>
    obtain ⟨hb, hbs⟩ := List.forall_mem_cons.mp h
    rw [List.cons_append, lines.go, if_neg (by simpa using hb), ih hbs]
    simp

/-- Lines that were ended one by one. -/
theorem lines_flatMap {ls : List Bytes} (h : ∀ l ∈ ls, ∀ b ∈ l, b ≠ Byte.newline) :
    lines (ls.flatMap fun l => l ++ [Byte.newline]) = ls := by
  induction ls with
  | nil => rfl
  | cons l ls ih =>
    obtain ⟨hl, hls⟩ := List.forall_mem_cons.mp h
    rw [List.flatMap_cons, List.append_assoc, lines, List.singleton_append, lines_go_append hl]
    exact congrArg (l :: ·) (ih hls)

end Bytes

namespace Token

/-- A token that can be written inside of a line. -/
structure OneLine (t : Token) : Prop where
  regular : t.Regular
  lineEnd : ∀ b ∈ t.spelling, ¬ Byte.isLineEnd b

theorem not_isLineEnd {b : UInt8} (h : ¬ Byte.isSpace b) : ¬ Byte.isLineEnd b := by
  intro hb
  simp only [Byte.isLineEnd, Bool.or_eq_true, beq_iff_eq] at hb
  rcases hb with rfl | rfl <;> exact h (by decide)

theorem escapeByte_lineEnd (c : UInt8) :
    ((Expr.escapeByte c).all fun b => !Byte.isLineEnd b) = true := by
  unfold Expr.escapeByte
  split
  · decide
  split
  · decide
  split
  · decide
  split
  · decide
  split
  · decide
  · next hn _ hc => simp [Byte.isLineEnd, hn, hc]

theorem admits_oneLine : Expr.Admits OneLine where
  literal text := by
    refine ⟨⟨.inl rfl, Expr.closes_escape text⟩, ?_⟩
    have hquote : ¬ Byte.isLineEnd Byte.quote := by decide
    have hescape : ∀ b ∈ Expr.escape text, ¬ Byte.isLineEnd b := by
      intro b hb
      obtain ⟨c, -, hc⟩ := List.mem_flatMap.mp hb
      simpa using List.all_eq_true.mp (escapeByte_lineEnd c) b hc
    exact List.forall_mem_append.mpr
      ⟨List.forall_mem_cons.mpr ⟨hquote, hescape⟩, List.forall_mem_singleton.mpr hquote⟩
  mark b hb := by
    refine ⟨Expr.regular_mark hb, fun c hc => ?_⟩
    have hmarks : (marks.all fun b => !Byte.isLineEnd b) = true := by decide
    rw [List.mem_singleton.mp hc]
    simpa using List.all_eq_true.mp hmarks b hb
  kind kind := by
    have hreg := Expr.regular_kind kind
    exact ⟨hreg, fun b hb => not_isLineEnd (not_isSpace_of_isWord (hreg.2 b hb))⟩

end Token

namespace Expr

variable {e : Expr}

theorem text_tight (h : e.Writable Token.OneLine) : e.text.Tight :=
  (spells_text (fun _ => Token.OneLine.regular) h).tight

theorem text_lineEnd (h : e.Writable Token.OneLine) : ∀ b ∈ e.text, ¬ Byte.isLineEnd b := by
  intro b hb
  rcases (spells_text (fun _ => Token.OneLine.regular) h).mem hb with rfl | ⟨t, ht, hbt⟩
  · decide
  · exact (admits_tokens Token.admits_oneLine h t ht).lineEnd b hbt

/-- A pattern without line ends is read as an expression that can be written on one line. -/
theorem writable_of_read_line {source : Bytes} (h : read source = .ok e)
    (hline : ∀ b ∈ source, ¬ Byte.isLineEnd b) : e.Writable Token.OneLine :=
  writable_of_read h fun _ ht =>
    ⟨(Token.of_mem_lexFrom ht).1, fun b hb => hline b ((Token.of_mem_lexFrom ht).2 hb)⟩

end Expr

/-! ### Rules -/

namespace Rule

/-- The line of a rule in the text of its grammar. -/
def line (r : Rule) : Bytes := r.name ++ Bytes.ascii " <- " ++ r.pattern.text

/-- The rule with the sequences of its pattern spliced. -/
def flatten (r : Rule) : Rule := { r with pattern := r.pattern.flatten }

/-- A rule as it is defined with a pattern only. -/
def plain (name : Bytes) (e : Expr) : Rule :=
  { name, pattern := e, nodeType := name, isFragment := false, description := [] }

/-- A rule as it is compiled from a line. -/
structure Compiled (r : Rule) : Prop where
  name : (Token.word r.name).Regular
  pattern : r.pattern.Writable Token.OneLine
  nodeType : r.nodeType = r.name
  isFragment : r.isFragment = false
  description : r.description = []

variable {r : Rule}

theorem arrow_eq (bs : Bytes) :
    Bytes.ascii " <- " ++ bs = Byte.blank :: Byte.less :: Byte.minus :: Byte.blank :: bs := by
  rw [show Bytes.ascii " <- " = [Byte.blank, Byte.less, Byte.minus, Byte.blank] by decide]
  rfl

namespace Compiled

theorem flatten_eq (h : r.Compiled) : r.flatten = plain r.name r.pattern.flatten := by
  rw [flatten, plain, h.nodeType, h.isFragment, h.description]

theorem name_tight (h : r.Compiled) : Bytes.Tight r.name :=
  Bytes.tight_of_forall h.name.1 fun b hb => Token.not_isSpace_of_isWord (h.name.2 b hb)

theorem line_tight (h : r.Compiled) : r.line.Tight :=
  h.name_tight.append (Expr.text_tight h.pattern) _

theorem line_head (h : r.Compiled) : ∀ b ∈ r.line.head?, Byte.isWord b := by
  intro b hb
  rw [line, List.append_assoc, List.head?_append_of_ne_nil _ h.name.1] at hb
  exact h.name.2 b (List.mem_of_mem_head? hb)

theorem line_lineEnd (h : r.Compiled) : ∀ b ∈ r.line, ¬ Byte.isLineEnd b := by
  intro b hb
  rcases List.mem_append.mp hb with hb | hb
  · rcases List.mem_append.mp hb with hb | hb
    · exact Token.not_isLineEnd (Token.not_isSpace_of_isWord (h.name.2 b hb))
    · have harrow : ((Bytes.ascii " <- ").all fun b => !Byte.isLineEnd b) = true := by decide
      simpa using List.all_eq_true.mp harrow b hb
  · exact Expr.text_lineEnd h.pattern b hb

/-- The line of a rule is split into its name and the text of its pattern. -/
theorem splitRule?_line (h : r.Compiled) :
    Grammar.splitRule? r.line = some (r.name, r.pattern.text) := by
  have hname : (r.name ++ Bytes.ascii " <- " ++ r.pattern.text).takeWhile Byte.isWord = r.name := by
    rw [List.append_assoc]
    refine Token.takeWhile_isWord_append h.name.2 ?_
    rw [arrow_eq]
    exact Token.stops_cons (by decide) _
  have hrest : ((r.name ++ Bytes.ascii " <- " ++ r.pattern.text).drop r.name.length).dropWhile
      Byte.isSpace = Byte.less :: Byte.minus :: Byte.blank :: r.pattern.text := by
    rw [List.append_assoc, List.drop_left, arrow_eq, List.dropWhile_cons_of_pos (by decide),
      List.dropWhile_cons_of_neg (by decide)]
  have hpattern : (Byte.blank :: r.pattern.text).dropWhile Byte.isSpace = r.pattern.text := by
    rw [List.dropWhile_cons_of_pos (by decide), (Expr.text_tight h.pattern).dropWhile_isSpace]
  have hlines : r.pattern.text.any Byte.isLineEnd = false := by
    simpa using Expr.text_lineEnd h.pattern
  have hempty : r.name.isEmpty = false := List.isEmpty_eq_false_iff.mpr h.name.1
  simp only [Grammar.splitRule?, line, hname, hrest]
  change (if r.name.isEmpty || ((Byte.blank :: r.pattern.text).dropWhile Byte.isSpace).any
    Byte.isLineEnd then none else some (r.name, Bytes.trim _)) = some (r.name, r.pattern.text)
  rw [hpattern, hlines, hempty, (Expr.text_tight h.pattern).trim]
  rfl

end Compiled

end Rule

namespace Grammar

/-! ### The lines of a grammar -/

/-- A line that begins with a word opens a logical line. -/
theorem joinLines_cons {line : Bytes} (htight : line.Tight)
    (hhead : ∀ b ∈ line.head?, Byte.isWord b) (current : Bytes) (lines : List Bytes) :
    joinLines current (line :: lines) = finished current ++ joinLines line lines := by
  cases line with
  | nil => exact absurd rfl htight.ne_nil
  | cons b bs =>
    have hb : Byte.isWord b := hhead b rfl
    have hhash : b ≠ Byte.hash := Token.ne_of_isWord hb (by decide)
    have hbar : b ≠ Byte.bar := Token.ne_of_isWord hb (by decide)
    have hspace : Byte.isSpace b = false := by simpa using Token.not_isSpace_of_isWord hb
    simp [joinLines, htight.trim, continues, hhash, hbar, hspace]

theorem joinLines_of_forall {lines : List Bytes}
    (h : ∀ l ∈ lines, l.Tight ∧ ∀ b ∈ l.head?, Byte.isWord b) (current : Bytes) :
    joinLines current lines = finished current ++ lines := by
  induction lines generalizing current with
  | nil => simp [joinLines]
  | cons l ls ih =>
    obtain ⟨⟨htight, hhead⟩, hls⟩ := List.forall_mem_cons.mp h
    have hline : finished l = [l] := if_neg (by simpa using htight.ne_nil)
    rw [joinLines_cons htight hhead, ih hls, hline]
    rfl

theorem logicalLines_text {g : Grammar} (h : ∀ r ∈ g.rules, r.Compiled) :
    logicalLines g.text = g.rules.toList.map Rule.line := by
  have htext : g.text = (g.rules.toList.map Rule.line).flatMap fun l => l ++ [Byte.newline] := by
    rw [text, List.flatMap_map]
    rfl
  have hlines : ∀ l ∈ g.rules.toList.map Rule.line,
      (l.Tight ∧ ∀ b ∈ l.head?, Byte.isWord b) ∧ ∀ b ∈ l, ¬ Byte.isLineEnd b := by
    intro l hl
    obtain ⟨r, hr, rfl⟩ := List.mem_map.mp hl
    have hr' := h r (Array.mem_toList_iff.mp hr)
    exact ⟨⟨hr'.line_tight, hr'.line_head⟩, hr'.line_lineEnd⟩
  rw [logicalLines, htext, Bytes.lines_flatMap, joinLines_of_forall fun l hl => (hlines l hl).1]
  · rfl
  · rintro l hl b hb rfl
    exact (hlines l hl).2 _ hb (by decide)

/-! ### Building -/

theorem build_bind_of_ok {α β : Type} {x : Build α} {f : α → Build β} {log log' : Log} {a : α}
    (h : x.run.run log = (.ok a, log')) : (x >>= f).run.run log = (f a).run.run log' := by
  rw [ExceptT.run_bind, StateT.run_bind, h]
  rfl

theorem build_bind_eq_ok {α β : Type} {x : Build α} {f : α → Build β} {log : Log} {b : β}
    (h : ((x >>= f).run.run log).1 = .ok b) :
    ∃ a log', x.run.run log = (.ok a, log') ∧ ((f a).run.run log').1 = .ok b := by
  cases hx : x.run.run log with
  | mk r log' =>
    cases r with
    | error e =>
      rw [ExceptT.run_bind, StateT.run_bind, hx] at h
      cases h
    | ok a => exact ⟨a, log', rfl, build_bind_of_ok hx ▸ h⟩

/-- The grammar with the rule of a line that was split and read. -/
def withRule (g : Grammar) (name : Bytes) (e : Expr) : Grammar :=
  (if e.usesReserved then g.addNote (.reservedToken name) else g).add name e

theorem addLine_eq_ok {g g' : Grammar} {line : Bytes} {log : Log}
    (h : ((addLine g line).run.run log).1 = .ok g') :
    g' = g.addNote (.skippedLine line) ∨ ∃ name pattern e, splitRule? line = some (name, pattern)
      ∧ Expr.read pattern = .ok e ∧ g' = g.withRule name e := by
  unfold addLine at h
  split at h
  · next hnone =>
    exact .inl (Except.ok.inj h).symm
  · next name pattern hsplit =>
    split at h
    · cases h
    · next e hread =>
      refine .inr ⟨name, pattern, e, hsplit, hread, ?_⟩
      rw [withRule]
      split at h
      · next hres => exact (Except.ok.inj h).symm.trans (by rw [if_pos hres])
      · next hres => exact (Except.ok.inj h).symm.trans (by rw [if_neg hres])

theorem addLine_of_read {g : Grammar} {line name pattern : Bytes} {e : Expr}
    (hsplit : splitRule? line = some (name, pattern)) (hread : Expr.read pattern = .ok e)
    (log : Log) : ∃ log', (addLine g line).run.run log = (.ok (g.withRule name e), log') := by
  unfold addLine withRule
  simp only [hsplit, hread]
  by_cases hres : e.usesReserved
  · simp only [hres, if_true]
    exact ⟨_, rfl⟩
  · simp only [hres]
    exact ⟨_, rfl⟩

/-! ### Compiled grammars -/

theorem add_of_find?_eq_some {g : Grammar} {name : Bytes} {id : Nat} (h : g.find? name = some id)
    (e : Expr) :
    g.add name e = { g with rules := g.rules.setIfInBounds id (Rule.plain name e) } := by
  simp only [add, define, List.isEmpty_nil, if_true, h, Rule.plain]

theorem add_of_find?_eq_none {g : Grammar} {name : Bytes} (h : g.find? name = none) (e : Expr) :
    g.add name e = { g with rules := g.rules.push (Rule.plain name e) } := by
  simp only [add, define, List.isEmpty_nil, if_true, h, Rule.plain]

/-- The names of the rules, in order. -/
def names (g : Grammar) : List Bytes := g.rules.toList.map (·.name)

theorem find?_eq_none_iff {g : Grammar} {name : Bytes} : g.find? name = none ↔ name ∉ g.names := by
  simp [find?, names, Array.findIdx?_eq_none_iff, Array.mem_toList_iff]

/-- Defining a name again leaves the names as they are. -/
theorem names_setIfInBounds {g : Grammar} {r : Rule} {id : Nat} (h : g.find? r.name = some id) :
    (g.rules.setIfInBounds id r).toList.map (·.name) = g.names := by
  obtain ⟨hid, hname, -⟩ := Array.findIdx?_eq_some_iff_getElem.mp h
  have hat : (g.rules.toList.map (·.name))[id]? = some r.name := by
    rw [List.getElem?_map, Array.getElem?_toList, Array.getElem?_eq_getElem hid, Option.map_some,
      beq_iff_eq.mp hname]
  obtain ⟨hlt, hget⟩ := List.getElem?_eq_some_iff.mp hat
  rw [Array.toList_setIfInBounds, List.map_set, names, show r.name = _ from hget.symm,
    List.set_getElem_self]

/-- Defining a rule adds its name, unless it is declared. -/
theorem names_define (g : Grammar) (r : Rule) :
    (g.define r).names = if g.declares r.name then g.names else g.names ++ [r.name] := by
  have hname : (if r.nodeType.isEmpty then { r with nodeType := r.name } else r).name = r.name := by
    split <;> rfl
  unfold define declares
  generalize (if r.nodeType.isEmpty then { r with nodeType := r.name } else r) = r' at hname ⊢
  rw [← hname]
  dsimp only
  cases hfind : g.find? r'.name with
  | some id => exact names_setIfInBounds hfind
  | none => simp [names]

/-- No rule is defined under a name twice, in whatever order the rules are defined. -/
theorem nodup_define {g : Grammar} (h : g.names.Nodup) (r : Rule) : (g.define r).names.Nodup := by
  rw [names_define]
  split
  · exact h
  · next hnot =>
    have hnew : r.name ∉ g.names := find?_eq_none_iff.mp (by simpa [declares] using hnot)
    rw [← List.concat_eq_append]
    exact h.concat hnew

/-- A grammar as it is compiled from a text with a name. -/
structure Compiled (name : Bytes) (g : Grammar) : Prop where
  rules : ∀ r ∈ g.rules, r.Compiled
  nodup : g.names.Nodup
  settings : g = { name, rules := g.rules, notes := g.notes }

namespace Compiled

variable {name : Bytes} {g : Grammar}

theorem empty (name : Bytes) : Compiled name { name } :=
  ⟨fun r hr => absurd hr (by simp), List.nodup_nil, rfl⟩

theorem addNote (h : g.Compiled name) (n : Note) : (g.addNote n).Compiled name := by
  refine ⟨h.rules, h.nodup, ?_⟩
  rw [h.settings]
  rfl

theorem add (h : g.Compiled name) {n : Bytes} {e : Expr} (hn : (Token.word n).Regular)
    (he : e.Writable Token.OneLine) : (g.add n e).Compiled name := by
  have hplain : (Rule.plain n e).Compiled := ⟨hn, he, rfl, rfl, rfl⟩
  have hnodup : (g.add n e).names.Nodup := nodup_define h.nodup _
  cases hfind : g.find? n with
  | some id =>
    rw [add_of_find?_eq_some hfind] at hnodup ⊢
    refine ⟨fun r hr => ?_, hnodup, ?_⟩
    · rcases Array.mem_or_eq_of_mem_setIfInBounds hr with hr | rfl
      · exact h.rules r hr
      · exact hplain
    · rw [h.settings]
  | none =>
    rw [add_of_find?_eq_none hfind] at hnodup ⊢
    refine ⟨fun r hr => ?_, hnodup, ?_⟩
    · rcases Array.mem_push.mp hr with hr | rfl
      · exact h.rules r hr
      · exact hplain
    · rw [h.settings]

theorem withRule (h : g.Compiled name) {n : Bytes} {e : Expr} (hn : (Token.word n).Regular)
    (he : e.Writable Token.OneLine) : (g.withRule n e).Compiled name := by
  unfold Grammar.withRule
  split
  · exact (h.addNote _).add hn he
  · exact h.add hn he

end Compiled

theorem mem_of_mem_trim {bs : Bytes} {b : UInt8} (h : b ∈ Bytes.trim bs) : b ∈ bs := by
  rw [Bytes.trim, List.mem_reverse] at h
  have hreverse := (List.dropWhile_suffix _).subset h
  exact (List.dropWhile_suffix _).subset (List.mem_reverse.mp hreverse)

/-- The name of a rule is a word, and its pattern stands on one line. -/
theorem splitRule?_eq_some {line name pattern : Bytes}
    (h : splitRule? line = some (name, pattern)) :
    (Token.word name).Regular ∧ ∀ b ∈ pattern, ¬ Byte.isLineEnd b := by
  simp only [splitRule?] at h
  split at h
  · next rest _ =>
    split at h
    · cases h
    · next hnot =>
      obtain ⟨rfl, rfl⟩ := Prod.mk.inj (Option.some.inj h)
      rw [Bool.or_eq_true, not_or, Bool.not_eq_true, Bool.not_eq_true] at hnot
      refine ⟨⟨List.isEmpty_eq_false_iff.mp hnot.1, fun b hb => List.mem_takeWhile_imp hb⟩, ?_⟩
      exact fun b hb => List.any_eq_false.mp hnot.2 b (mem_of_mem_trim hb)
  · cases h

theorem compiled_addLine {name : Bytes} {g g' : Grammar} (hg : g.Compiled name) {line : Bytes}
    {log : Log} (h : ((addLine g line).run.run log).1 = .ok g') : g'.Compiled name := by
  rcases addLine_eq_ok h with rfl | ⟨n, pattern, e, hsplit, hread, rfl⟩
  · exact hg.addNote _
  · obtain ⟨hn, hline⟩ := splitRule?_eq_some hsplit
    exact hg.withRule hn (Expr.writable_of_read_line hread hline)

theorem compiled_foldlM {name : Bytes} {lines : List Bytes} {g g' : Grammar} (hg : g.Compiled name)
    {log : Log} (h : ((lines.foldlM addLine g).run.run log).1 = .ok g') : g'.Compiled name := by
  induction lines generalizing g log with
  | nil =>
    obtain rfl : g = g' := Except.ok.inj h
    exact hg
  | cons line lines ih =>
    rw [List.foldlM_cons] at h
    obtain ⟨mid, log', hline, hrest⟩ := build_bind_eq_ok h
    exact ih (compiled_addLine hg (congrArg Prod.fst hline)) hrest

/-- Every rule of a compiled grammar can be written on one line, and no name is declared twice. -/
theorem compiled_compile {text name : Bytes} {g : Grammar} {log : Log}
    (h : ((compile text name).run.run log).1 = .ok g) : g.Compiled name := by
  obtain ⟨g', log', hlines, hwrite⟩ := build_bind_eq_ok h
  obtain rfl : g' = g := Except.ok.inj hwrite
  exact compiled_foldlM (.empty name) (congrArg Prod.fst hlines)

/-! ### Compiling again -/

/-- The grammar with the sequences of its patterns spliced, and with other notes. -/
def flatten (g : Grammar) (notes : List Note) : Grammar :=
  { g with rules := g.rules.map Rule.flatten, notes }

theorem withRule_of_new {g : Grammar} {name : Bytes} (h : name ∉ g.names) (e : Expr) :
    ∃ notes, g.withRule name e = { g with rules := g.rules.push (Rule.plain name e), notes }
      ∧ ∀ line, .skippedLine line ∈ notes → .skippedLine line ∈ g.notes := by
  unfold withRule
  split
  · refine ⟨_, add_of_find?_eq_none (g := g.addNote (.reservedToken name))
      (find?_eq_none_iff.mpr h) e, fun line hline => ?_⟩
    simpa [addNote] using hline
  · exact ⟨g.notes, add_of_find?_eq_none (find?_eq_none_iff.mpr h) e, fun _ => id⟩

/-- The lines of rules with new names are added as these rules. -/
theorem foldlM_lines {rules : List Rule} (hrules : ∀ r ∈ rules, r.Compiled) {g : Grammar}
    (hnames : (g.names ++ rules.map (·.name)).Nodup) :
    ∃ notes, (∀ log, ∃ log', ((rules.map Rule.line).foldlM addLine g).run.run log
        = (.ok { g with rules := g.rules ++ (rules.map Rule.flatten).toArray, notes }, log'))
      ∧ ∀ line, .skippedLine line ∈ notes → .skippedLine line ∈ g.notes := by
  induction rules generalizing g with
  | nil => exact ⟨g.notes, fun log => ⟨log, by simp; rfl⟩, fun _ => id⟩
  | cons r rules ih =>
    obtain ⟨hr, hrules⟩ := List.forall_mem_cons.mp hrules
    have hnew : r.name ∉ g.names := fun hmem =>
      (List.nodup_append.mp hnames).2.2 _ hmem r.name (by simp) rfl
    obtain ⟨notes, hadd, hnotes⟩ := withRule_of_new hnew r.pattern.flatten
    have hread := Expr.read_text (fun _ => Token.OneLine.regular) hr.pattern
    have hnext : (names { g with rules := g.rules.push r.flatten, notes }
        ++ rules.map (·.name)).Nodup := by
      rw [names, Array.toList_push, List.map_append, List.append_assoc]
      exact hnames
    obtain ⟨notes', hrest, hnotes'⟩ := ih hrules hnext
    refine ⟨notes', fun log => ?_, fun line hline => hnotes line (hnotes' line hline)⟩
    obtain ⟨log', hline⟩ := addLine_of_read (g := g) hr.splitRule?_line hread log
    rw [hadd, ← hr.flatten_eq] at hline
    obtain ⟨log'', hrest⟩ := hrest log'
    refine ⟨log'', ?_⟩
    rw [List.map_cons, List.foldlM_cons, build_bind_of_ok hline, hrest]
    simp

theorem compile_of_foldlM {text name : Bytes} {log log' : Log} {g : Grammar}
    (h : ((logicalLines text).foldlM addLine { name }).run.run log = (.ok g, log')) :
    ((compile text name).run.run log).1 = .ok g := by
  rw [compile, build_bind_of_ok h]
  rfl

/-- A compiled grammar is compiled from its text again, with the sequences of its patterns
spliced, and no line is passed over. -/
theorem compile_text {name : Bytes} {g : Grammar} (h : g.Compiled name) :
    ∃ notes, (∀ log, ((compile g.text name).run.run log).1 = .ok (g.flatten notes))
      ∧ ∀ line, .skippedLine line ∉ notes := by
  have hrules : ∀ r ∈ g.rules.toList, r.Compiled := fun r hr =>
    h.rules r (Array.mem_toList_iff.mp hr)
  obtain ⟨notes, hlines, hnotes⟩ :=
    foldlM_lines (g := { name }) hrules (show ([] ++ g.names).Nodup from h.nodup)
  refine ⟨notes, fun log => ?_, fun line hline => absurd (hnotes line hline) (by simp)⟩
  obtain ⟨log', hlines⟩ := hlines log
  have hflatten : g.flatten notes =
      { name, rules := #[] ++ (g.rules.toList.map Rule.flatten).toArray, notes } :=
    (congrArg (flatten · notes) h.settings).trans (by simp [flatten, ← Array.toList_map])
  rw [← logicalLines_text h.rules] at hlines
  rw [hflatten]
  exact compile_of_foldlM hlines

/-! ### What splicing keeps -/

variable {g : Grammar} {notes : List Note}

theorem names_flatten : (g.flatten notes).names = g.names := by
  simp [names, flatten, Rule.flatten, Function.comp_def]

theorem find?_flatten (name : Bytes) : (g.flatten notes).find? name = g.find? name := by
  rw [find?, flatten, Array.findIdx?_map]
  rfl

theorem text_flatten (h : ∀ r ∈ g.rules, r.Compiled) : (g.flatten notes).text = g.text := by
  rw [text, text, flatten, Array.toList_map, List.flatMap_map]
  refine List.flatMap_congr fun r hr => ?_
  rw [Rule.flatten, Expr.text_flatten (h r (Array.mem_toList_iff.mp hr)).pattern]

theorem pattern?_flatten (name : Bytes) :
    (g.flatten notes).pattern? name = (g.pattern? name).map Expr.flatten := by
  rw [pattern?, pattern?, find?_flatten]
  cases g.find? name with
  | none => rfl
  | some id =>
    simp [flatten, Rule.flatten, Function.comp_def]

theorem mem_of_pattern?_eq_some {name : Bytes} {e : Expr} (h : g.pattern? name = some e) :
    ∃ r ∈ g.rules, r.pattern = e := by
  obtain ⟨id, -, hid⟩ := Option.bind_eq_some_iff.mp h
  obtain ⟨r, hr, rfl⟩ := Option.map_eq_some_iff.mp hid
  exact ⟨r, Array.mem_of_getElem? hr, rfl⟩

theorem leading_flatten (h : ∀ r ∈ g.rules, r.Compiled) (name : Bytes) :
    ((g.flatten notes).pattern? name).map Expr.leading = (g.pattern? name).map Expr.leading := by
  rw [pattern?_flatten]
  cases hpattern : g.pattern? name with
  | none => rfl
  | some e =>
    obtain ⟨r, hr, rfl⟩ := mem_of_pattern?_eq_some hpattern
    exact congrArg some (Expr.leading_flatten (h r hr).pattern)

theorem leadsTo_flatten (h : ∀ r ∈ g.rules, r.Compiled) (goal : Bytes) (fuel : Nat)
    (visited pending : List Bytes) :
    (g.flatten notes).leadsTo goal fuel visited pending = g.leadsTo goal fuel visited pending := by
  induction fuel generalizing visited pending with
  | zero => rfl
  | succ fuel ih =>
    cases pending with
    | nil => rfl
    | cons name pending => simp only [leadsTo, leading_flatten h, ih]

theorem leadingCount_flatten (h : ∀ r ∈ g.rules, r.Compiled) :
    (g.flatten notes).leadingCount = g.leadingCount := by
  rw [leadingCount, leadingCount, flatten, Array.toList_map, List.foldl_map]
  refine List.foldl_ext _ _ _ fun n r hr => ?_
  rw [Rule.flatten, Expr.leading_flatten (h r (Array.mem_toList_iff.mp hr)).pattern]

/-- Splicing leaves the rules that can reach themselves without consuming anything. -/
theorem leftRecursive_flatten (h : ∀ r ∈ g.rules, r.Compiled) :
    (g.flatten notes).leftRecursive = g.leftRecursive := by
  have hrule : ∀ r ∈ g.rules.toList,
      ((g.flatten notes).isLeftRecursive ∘ Rule.flatten) r = g.isLeftRecursive r := by
    intro r hr
    rw [Function.comp, isLeftRecursive, isLeftRecursive, leadsTo_flatten h, leadingCount_flatten h, Rule.flatten,
      Expr.leading_flatten (h r (Array.mem_toList_iff.mp hr)).pattern]
  rw [leftRecursive, leftRecursive, show (g.flatten notes).rules = g.rules.map Rule.flatten from rfl,
    Array.toList_map, List.filter_map, List.map_map, List.filter_congr hrule]
  rfl

end Grammar

end Packrat
