import Packrat.Proofs.Parse.Regions

/-!
Openings that do not fit.

The bound on openings in `Parser.region_moved` is exact.  A comment that begins with `n` times the
same letter, where `n` is more than the window and one byte, is looked for by comparing all `n`
letters, but only the window counts as examined (`Scan.comment_run`).  Two texts that first differ
behind the window then give trees with different reads, although they agree on everything that the
first tree has examined (`Parser.region_run`).
-/

namespace Packrat

/-- The letter that the openings here consist of. -/
def runLetter : UInt8 := 120

/-- The pattern of the comments: `n` letters and one `y`. -/
def runPattern (n : Nat) : Bytes := List.replicate n runLetter ++ Bytes.ascii "[y]"

namespace Regex

/-- What the pattern stands for. -/
def runOf : (n : Nat) → Regex
  | 0 => .seq (.byte (.bracket false [.byte 121])) .empty
  | n + 1 => .seq (.byte (.exactly runLetter)) (runOf n)

theorem byte?_of_le {w : Window} {pos : Nat} (h : w.stop ≤ pos) : w.byte? pos = none := by
  unfold Window.byte?
  rw [if_neg (by omega)]

/-- A run does not match in a window that is shorter. -/
theorem run_runOf {w : Window} {n base : Nat} {s : Spot} {k : Rest} (h : w.stop ≤ s.pos + n) :
    ∃ g, (runOf n).run w base s k = .error g := by
  induction n generalizing base s with
  | zero =>
    rw [runOf, run, run, byte?_of_le (by omega)]
    exact ⟨_, rfl⟩
  | succ n ih =>
    rw [runOf, run, run]
    cases w.byte? s.pos with
    | none => exact ⟨_, rfl⟩
    | some b =>
      dsimp only
      split
      · exact ih (by simp only [Spot.advance]; omega)
      · exact ⟨_, rfl⟩

theorem matchFrom_runOf {w : Window} {n : Nat} (h : w.stop ≤ w.origin + n) :
    (runOf n).matchFrom w = none := by
  obtain ⟨g, hg⟩ := @run_runOf w n 0 (w.spot (runOf n)) .ok h
  unfold matchFrom
  rw [hg]

/-! ### Reading the pattern -/

theorem lexFrom_run (fuel n : Nat) (bs : Bytes) :
    Token.lexFrom (fuel + n) .outside (List.replicate n runLetter ++ bs)
      = (Token.lexFrom fuel .outside bs).map (List.replicate n (.literal runLetter) ++ ·) := by
  induction n with
  | zero => simp
  | succ n ih =>
    rw [List.replicate_succ, List.replicate_succ, List.cons_append, ← Nat.add_assoc, Token.lexFrom,
      show Token.next? .outside (runLetter :: (List.replicate n runLetter ++ bs))
        = some (.literal runLetter, .outside, List.replicate n runLetter ++ bs) from rfl]
    simp only [Option.bind_eq_bind, Option.bind_some, ih]
    cases Token.lexFrom fuel .outside bs <;> rfl

theorem lex?_runPattern (n : Nat) :
    Token.lex? (runPattern n) = some (List.replicate n (.literal runLetter)
      ++ [.openBracket false, .literal 121, .closeBracket]) := by
  unfold Token.lex? runPattern
  rw [List.length_append, List.length_replicate, Nat.add_comm, lexFrom_run]
  rfl

/-- A letter is an expression of its own unless a quantifier follows. -/
theorem term_letter {ts : List Token} (h : quantity? ts = some none) (fuel : Nat) (g : GroupCount) :
    term (fuel + 2) g (.literal runLetter :: ts)
      = some (some (.byte (.exactly runLetter), g, ts)) := by
  simp only [term, atom, quantified, Option.bind_eq_bind, Option.bind_some, h]
  rfl

theorem alternative_run (fuel n : Nat) (g : GroupCount) :
    alternative (fuel + 4 + n) g (List.replicate n (.literal runLetter)
      ++ [.openBracket false, .literal 121, .closeBracket]) = some (runOf n, g, []) := by
  induction n with
  | zero => rfl
  | succ n ih =>
    have hquantity : quantity? (List.replicate n (.literal runLetter)
        ++ [.openBracket false, .literal 121, .closeBracket]) = some none := by
      cases n <;> rfl
    rw [List.replicate_succ, List.cons_append, ← Nat.add_assoc, alternative,
      show fuel + 4 + n = (fuel + 2 + n) + 2 by omega, term_letter hquantity,
      show (fuel + 2 + n) + 2 = fuel + 4 + n by omega]
    simp only [Option.bind_eq_bind, Option.bind_some, ih]
    rfl

theorem cost_runOf (n : Nat) : (runOf n).cost = n + 2 := by
  induction n with
  | zero => rfl
  | succ n ih => rw [runOf, cost, ih, cost]; omega

theorem read?_runPattern {n : Nat} (h : n + 5 ≤ costLimit) :
    Regex.read? (runPattern n) = some (runOf n) := by
  have hdisjunction : disjunction (4 * (n + 3) + 4) {} (List.replicate n (.literal runLetter)
      ++ [.openBracket false, .literal 121, .closeBracket]) = some (runOf n, {}, []) := by
    rw [show 4 * (n + 3) + 4 = (3 * n + 11 + 4 + n) + 1 by omega, disjunction, alternative_run,
      show 3 * n + 11 + 4 + n = (4 * n + 14) + 1 by omega]
    rfl
  unfold Regex.read?
  rw [lex?_runPattern]
  simp only [Option.bind_eq_bind, Option.bind_some, List.length_append, List.length_replicate,
    List.length_cons, List.length_nil, Nat.zero_add, hdisjunction, List.isEmpty_nil, Bool.true_and,
    cost_runOf]
  rw [if_pos (by simpa using h)]

end Regex

/-! ### The comment -/

/-- The comment whose opening is a run of `n` letters. -/
def runComment (n : Nat) : Comment where
  source := runPattern n
  opening := List.replicate n runLetter
  shape := .regex (Regex.runOf n)
  opening_ne_nil := nofun

theorem hasBar_runPattern (n : Nat) : Comment.hasBar (runPattern n) = false := by
  unfold runPattern
  induction n with
  | zero => rfl
  | succ n ih => exact ih

theorem splitOpening_runPattern (n : Nat) :
    Comment.splitOpening (runPattern n) = (List.replicate n runLetter, Bytes.ascii "[y]") := by
  unfold runPattern
  induction n with
  | zero => rfl
  | succ n ih =>
    have hextend : ∀ tail, Comment.extend (List.replicate (n + 1) runLetter ++ Bytes.ascii "[y]")
        runLetter (List.replicate n runLetter ++ Bytes.ascii "[y]") tail
          = (runLetter :: tail.1, tail.2) := by
      intro tail
      cases n <;> rfl
    have hstep : Comment.splitOpening (List.replicate (n + 1) runLetter ++ Bytes.ascii "[y]")
        = Comment.extend (List.replicate (n + 1) runLetter ++ Bytes.ascii "[y]") runLetter
          (List.replicate n runLetter ++ Bytes.ascii "[y]")
          (Comment.splitOpening (List.replicate n runLetter ++ Bytes.ascii "[y]")) := rfl
    rw [hstep, hextend, ih]
    rfl

/-- The comment is what the pattern is read as. -/
theorem read?_runComment {n : Nat} (h : n + 5 ≤ Regex.costLimit) :
    Comment.read? (runPattern n) = some (runComment n) := by
  have hdirect : Comment.directShape? (List.replicate n runLetter) (Bytes.ascii "[y]") = none := rfl
  unfold Comment.read?
  simp only [Regex.read?_runPattern h, hasBar_runPattern, splitOpening_runPattern, hdirect,
    Option.bind_eq_bind, Option.bind_some, Bool.false_eq_true, if_false]
  rfl

/-! ### Looking for the comment -/

namespace Scan

variable {t : Text} {m n o : Nat}

/-- How much of a run is found: up to the first place that shows something else. -/
theorem commonLength_replicate {b : UInt8} (hrun : ∀ i, i < m → t[o + i]? = some b) (hmn : m ≤ n)
    (hend : m = n ∨ t[o + m]? ≠ some b) : commonLength t (List.replicate n b) o = m := by
  induction n generalizing o m with
  | zero => simp [commonLength]; omega
  | succ n ih =>
    rw [List.replicate_succ, commonLength]
    cases m with
    | zero => rw [if_neg (by simpa using hend)]
    | succ m =>
      rw [if_pos (by simpa using hrun 0 (by omega)), ih (m := m)]
      · intro i hi
        rw [show o + 1 + i = o + (i + 1) by omega]
        exact hrun (i + 1) (by omega)
      · omega
      · rw [show o + 1 + m = o + (m + 1) by omega]
        exact hend.imp Nat.succ.inj id

/-- A run that is too long for the window is compared in full, but only the window counts. -/
theorem comment_run (h : regexWindow < n) (hsize : t.size = n)
    (hrun : ∀ i, i < n → t[i]? = some runLetter) :
    comment t (runComment n) 0 = ⟨.nothing, 0, regexWindow + 1⟩ := by
  have hcommon : commonLength t (runComment n).opening 0 = n :=
    commonLength_replicate (fun i hi => by rw [Nat.zero_add]; exact hrun i hi) (Nat.le_refl n)
      (.inl rfl)
  have hlength : (runComment n).opening.length = n := List.length_replicate
  have hwindow : min t.size (0 + regexWindow) = regexWindow := by omega
  have hnone : (Regex.runOf n).matchFrom
      { text := t, origin := 0, stop := regexWindow, cut := regexWindow < t.size } = none :=
    Regex.matchFrom_runOf (by show regexWindow ≤ 0 + n; omega)
  unfold comment
  simp only [hcommon, hlength, Nat.lt_irrefl, if_false]
  show regex t (Regex.runOf n) 0 = _
  unfold regex
  rw [hwindow]
  simp only [Nat.zero_le, if_true, hnone, look]
  congr 1
  omega

/-- A run that breaks off is compared up to that place, and all of it counts. -/
theorem comment_broken_run (hsize : t.size = m + 1) (hrun : ∀ i, i < m → t[i]? = some runLetter)
    (hend : t[m]? ≠ some runLetter) : comment t (runComment (m + 1)) 0 = ⟨.nothing, 0, m + 1⟩ := by
  have hcommon : commonLength t (runComment (m + 1)).opening 0 = m :=
    commonLength_replicate (fun i hi => by rw [Nat.zero_add]; exact hrun i hi) (Nat.le_succ m)
      (.inr (by rwa [Nat.zero_add]))
  have hlength : (runComment (m + 1)).opening.length = m + 1 := List.length_replicate
  unfold comment
  simp only [hcommon, hlength, Nat.lt_succ_self, if_true, look]
  congr 1
  omega

/-- Text that begins with a letter, and not with a comment, is not skipped. -/
theorem ignoredLooks_of_nothing {stop : Nat} {c : Comment} (hfirst : t[0]? = some runLetter)
    (hcomment : comment t c 0 = ⟨.nothing, 0, stop⟩) :
    ignoredLooks t [c] 0 = (0, [⟨.upTo 0, 0, 1⟩, ⟨.nothing, 0, stop⟩]) := by
  obtain ⟨hlt, hbyte⟩ := Array.getElem?_eq_some_iff.1 hfirst
  have hscan : t.scanWhile Byte.isBlank 0 = 0 := by
    rw [Text.scanWhile, dif_pos hlt, hbyte]
    rfl
  have hblanks : blanks t 0 = ⟨.upTo 0, 0, 1⟩ := by
    unfold blanks
    simp only [hscan, look]
    rw [Nat.min_eq_left (by omega)]
  unfold ignoredLooks ignoredWithin ignoredRound
  simp only [hscan, hblanks, commentsPass, hcomment, Pass.behind]
  rfl

end Scan

namespace Parser

open Parse

/-- One rule, which takes one byte; behind the comments that are runs of `n` letters. -/
def runGrammar (n : Nat) : Grammar where
  name := Bytes.ascii "run"
  rules := #[{ name := Bytes.ascii "s", nodeType := Bytes.ascii "s", isFragment := false,
               description := [], pattern := .atom none .anyByte }]
  comments := [runComment n]

def runParser (n : Nat) : Parser where
  grammar := runGrammar n
  maxDepth := 1
  leftRecursive_eq := rfl

/-- The node of the one byte, if looking for the comment has taken a look up to `stop`. -/
def runTree (source : Source) (stop : Nat) : Subtree :=
  .node
    { type := Bytes.ascii "s", value := .text (source.slice 0 1)
      line := (source.position 0).1, column := (source.position 0).2, start := 0, stop := 1
      invoked := 0, rule := some 0, depth := 1
      reads := ((Footprint.empty.add 0 1).add 0 stop).add 0 1 } []

theorem region_of_nothing {n stop : Nat} {source : Source} {log : Log}
    (hfirst : source.text[0]? = some runLetter)
    (hcomment : Scan.comment source.text (runComment n) 0 = ⟨.nothing, 0, stop⟩) :
    ((runParser n).region source 0 0 1 1 log).1 = .ok (some (runTree source stop)) := by
  obtain ⟨hlt, hbyte⟩ := Array.getElem?_eq_some_iff.1 hfirst
  have hskip : skipped ⟨runGrammar n, source⟩ 0
      = (0, [⟨.upTo 0, 0, 1⟩, ⟨.nothing, 0, stop⟩]) :=
    Scan.ignoredLooks_of_nothing hfirst hcomment
  have hscan : Scan.byte source.text (fun _ => true) 0 = ⟨.upTo 1, 0, 1⟩ := by
    simp [Scan.byte, Scan.has, hfirst, Scan.look]
  rw [region_eq_some]
  refine ⟨⟨0, 0⟩, ?_⟩
  show ∃ s, invoke ⟨runGrammar n, source⟩ 1 0 0 0 {} = _
  have hstart : ∀ s, skip ⟨runGrammar n, source⟩ 0 s
      = .ok 0 { s with frame := s.frame.after [.saw ⟨.upTo 0, 0, 1⟩, .saw ⟨.nothing, 0, stop⟩] } := by
    intro s
    rw [skip_apply (Nat.zero_le _) s, hskip]
    rfl
  have hpattern : ∀ call s, matchExpr ⟨runGrammar n, source⟩ call 1 (.atom none .anyByte) 0 s
      = .ok (.ok 1 (.one (.text (source.slice 0 1) 0)))
          { s with frame := s.frame.step (.saw ⟨.upTo 1, 0, 1⟩) } := by
    intro call s
    show Eval.scan (Scan.byte source.text (fun _ => true) 0) _ s = _
    rw [hscan, scan_apply (by simp)]
    rfl
  have hrule : ∀ s, ruleOf ⟨runGrammar n, source⟩ 0 s
      = .ok { name := Bytes.ascii "s", nodeType := Bytes.ascii "s", isFragment := false,
              description := [], pattern := .atom none .anyByte } s := fun _ => rfl
  have hmemo : (({} : State).memo)[(⟨0, 0⟩ : Key)]? = none := by simp
  have henter : ∀ s, Eval.enter s = .ok s.frame { s with frame := {} } := fun _ => rfl
  have hleave : ∀ f s, Eval.leave f s = .ok s.frame { s with frame := f } := fun _ _ => rfl
  rw [invoke]
  unfold Eval.remember
  rw [Eval.bind_apply, Eval.get_apply]
  simp only [hmemo, ruleEntry, Eval.bind_apply, hrule, henter, hstart]
  obtain ⟨s₁, hattempt, -, hframe⟩ := Eval.attempt_apply (Bytes.ascii "s") 0
    { frame := ({} : Frame).after [.saw ⟨.upTo 0, 0, 1⟩, .saw ⟨.nothing, 0, stop⟩] }
  rw [hattempt]
  simp only [hpattern, hleave, hframe]
  exact ⟨_, rfl⟩

theorem examined_runTree {source : Source} {stop x : Nat} (h : 0 < stop) :
    (runTree source stop).Examined x ↔ x < stop := by
  obtain ⟨h₁, hx₁⟩ := Footprint.add_spec Footprint.ordered_empty 0 1
  obtain ⟨h₂, hx₂⟩ := Footprint.add_spec h₁ 0 stop
  obtain ⟨-, hx₃⟩ := Footprint.add_spec h₂ 0 1
  rw [runTree, Subtree.examined_node]
  simp only [hx₁, hx₂, hx₃, Footprint.not_mem_empty, List.not_mem_nil, false_and, exists_false,
    or_false, false_or]
  omega

/-- A text that is all run, and one that breaks off at its last byte. -/
def runText (m : Nat) (last : UInt8) : Text := (List.replicate m runLetter).toArray.push last

theorem getElem?_runText {m i : Nat} (last : UInt8) (h : i < m) :
    (runText m last)[i]? = some runLetter := by
  simp [runText, Array.getElem?_push, Nat.ne_of_lt h, h]

theorem getElem?_runText_last (m : Nat) (last : UInt8) : (runText m last)[m]? = some last := by
  rw [runText, Array.getElem?_push, if_pos (by simp)]

theorem size_runText (m : Nat) (last : UInt8) : (runText m last).size = m + 1 := by simp [runText]

/-- **Reads behind the window are lost.**  Two texts agree on everything that the node of a byte has
examined, and in the second text the node has examined more. -/
theorem region_run {m : Nat} (h : Scan.regexWindow < m) (last : UInt8) (hlast : last ≠ runLetter) :
    ((runParser (m + 1)).region (.ofText (runText m runLetter)) 0 0 1 1 #[]).1
        = .ok (some (runTree (.ofText (runText m runLetter)) (Scan.regexWindow + 1)))
      ∧ ((runParser (m + 1)).region (.ofText (runText m last)) 0 0 1 1 #[]).1
        = .ok (some (runTree (.ofText (runText m last)) (m + 1)))
      ∧ ∀ x ≤ Scan.regexWindow, (runText m last).shows x = (runText m runLetter).shows x := by
  have hrun : ∀ i, i < m + 1 → (runText m runLetter)[i]? = some runLetter := by
    intro i hi
    rcases Nat.lt_succ_iff_lt_or_eq.1 hi with hlt | rfl
    · exact getElem?_runText _ hlt
    · exact getElem?_runText_last _ _
  refine ⟨?_, ?_, fun x hx => ?_⟩
  · exact region_of_nothing (hrun 0 (by omega))
      (Scan.comment_run (by omega) (size_runText m runLetter) hrun)
  · exact region_of_nothing (getElem?_runText last (by omega))
      (Scan.comment_broken_run (size_runText m last) (fun i hi => getElem?_runText last hi)
        (by show (runText m last)[m]? ≠ _; rw [getElem?_runText_last]; simpa using hlast))
  · rw [Text.shows_of_le (by rw [size_runText]; omega), Text.shows_of_le (by rw [size_runText]; omega),
      getElem?_runText _ (by omega), getElem?_runText _ (by omega)]

/-- Without a bound on openings the reads of a region are not all that it depends on. -/
theorem region_not_moved_of_long_opening :
    ∃ (p : Parser) (source source' : Source) (tree tree' : Subtree),
      p.grammar.comments.map some = [Comment.read? (runPattern 4098)]
        ∧ (p.region source 0 0 1 1 #[]).1 = .ok (some tree)
        ∧ (∀ x, tree.Examined x → source'.text.shows x = source.text.shows x)
        ∧ (p.region source' 0 0 1 1 #[]).1 = .ok (some tree')
        ∧ ¬tree.MovedBy 0 tree' := by
  obtain ⟨hrun, hrun', hshows⟩ := region_run (show Scan.regexWindow < 4097 by decide) 122 (by decide)
  refine ⟨runParser 4098, _, _, _, _, ?_, hrun, fun x hx => ?_, hrun', fun hmoved => ?_⟩
  · rw [read?_runComment (by decide)]
    rfl
  · exact hshows x (Nat.lt_succ_iff.1 ((examined_runTree (by decide)).1 hx))
  · -- the second tree has examined the last byte but one, which the first one has not
    have hlast := (hmoved.examined_iff (show Offset.MovedBy 0 4097 4097 from rfl)).1
      ((examined_runTree (by decide)).2 (by decide))
    exact absurd ((examined_runTree (by decide)).1 hlast) (by decide)

end Parser

end Packrat
