import Packrat.Proofs.Parse.Alike
import Packrat.Proofs.Parse.Entries

/-!
The same match, found somewhere else.

For a distance `d` this says when nodes, outcomes and frames are the same up to their place, and that
frames and what is made of them keep the correspondence.  Then come the matches that read the text
themselves: if the second text shows the same wherever the first one was looked at (`Agrees`), ignored
text, tokens, literals and classes give the same, `d` places further on.
-/

namespace Packrat

namespace Parse

variable {d : Int}

/-! ### What corresponds -/

/-- The same node, `d` places further on. -/
structure NodeMovedBy (d : Int) (n n' : Key × Subtree) : Prop where
  symbol : n'.1.symbol = n.1.symbol
  offset : Offset.MovedBy d n.1.offset n'.1.offset
  tree : n.2.MovedBy d n'.2

/-- The place `o'` in a text stands `d` places behind `o`. -/
def PlaceMovedBy (d : Int) (src' : Source) (o o' : Nat) : Prop :=
  Offset.MovedBy d o o' ∧ o' ≤ src'.size

/-- The same outcome, `d` places further on in the text `src'`. -/
def Outcome.MovedBy (d : Int) (src' : Source) : Outcome → Outcome → Prop :=
  Outcome.Alike (PlaceMovedBy d src') (NodeMovedBy d)

structure Entry.MovedBy (d : Int) (src' : Source) (e e' : Entry) : Prop where
  outcome : e.outcome.MovedBy d src' e'.outcome
  reads : e.reads.MovedBy d e'.reads

structure Frame.MovedBy (d : Int) (f f' : Frame) : Prop where
  reads : f.reads.MovedBy d f'.reads
  touched : List.Forall₂ (NodeMovedBy d) f.touched.toList f'.touched.toList

variable {src' : Source}

/-! ### Frames -/

namespace Frame.MovedBy

variable {f f' : Frame}

theorem saw (h : f.MovedBy d f') {looks looks' : List Look}
    (hlooks : List.Forall₂ (Look.MovedBy d) looks looks') :
    (f.after (looks.map .saw)).MovedBy d (f'.after (looks'.map .saw)) := by
  induction hlooks generalizing f f' with
  | nil => exact h
  | cons hl _ ih => exact @ih (f.step (.saw _)) (f'.step (.saw _)) ⟨h.reads.note hl, h.touched⟩

theorem consume (h : f.MovedBy d f') {e e' : Entry} (he : e.MovedBy d src' e') :
    (f.consume e).MovedBy d (f'.consume e') := by
  refine ⟨h.reads.merge he.reads, ?_⟩
  simpa [Frame.consume] using List.rel_append h.touched he.outcome.nodes

/-- Nodes that are charged, unless they are told to be left out, correspond. -/
theorem foldl_charge {p p' : Key → Bool} {ns ns' : List (Key × Subtree)}
    (hns : List.Forall₂ (NodeMovedBy d) ns ns') {g g' : Footprint} (hg : g.MovedBy d g')
    (hp : ∀ n n', NodeMovedBy d n n' → p' n'.1 = p n.1) :
    (ns.foldl (fun reads t => if p t.1 then reads else t.2.charge reads) g).MovedBy d
      (ns'.foldl (fun reads t => if p' t.1 then reads else t.2.charge reads) g') := by
  induction hns generalizing g g' with
  | nil => exact hg
  | cons hn _ ih =>
    rw [List.foldl_cons, List.foldl_cons, hp _ _ hn]
    split
    · exact ih hg
    · exact ih (hn.tree.charge hg)

theorem total (h : f.MovedBy d f') : f.total.MovedBy d f'.total := by
  have := @foldl_charge _ (fun _ => false) (fun _ => false) _ _ h.touched _ _ h.reads fun _ _ _ => rfl
  unfold Frame.total
  rw [← Array.foldl_toList, ← Array.foldl_toList]
  simpa using this

/-- Keys of corresponding nodes are equal in one run if they are in the other. -/
theorem key_eq_iff {n n' m m' : Key × Subtree} (hn : NodeMovedBy d n n') (hm : NodeMovedBy d m m') :
    m'.1 = n'.1 ↔ m.1 = n.1 := by
  obtain ⟨⟨ks, ko⟩, t⟩ := n
  obtain ⟨⟨ks', ko'⟩, t'⟩ := n'
  obtain ⟨⟨ls, lo⟩, u⟩ := m
  obtain ⟨⟨ls', lo'⟩, u'⟩ := m'
  have h₁ := hn.symbol
  have h₂ := hm.symbol
  have h₃ := hm.offset.eq_iff hn.offset
  simp only at h₁ h₂ h₃
  simp only [Key.mk.injEq, h₁, h₂, h₃]

theorem settle (h : f.MovedBy d f') {y y' : Yield}
    (hy : y.Alike (PlaceMovedBy d src') (NodeMovedBy d) y') :
    (f.settle y).MovedBy d (f'.settle y') := by
  rw [Frame.settle_eq, Frame.settle_eq]
  refine foldl_charge h.touched h.reads fun n n' hn => ?_
  rw [Bool.eq_iff_iff, Yield.keeps_iff, Yield.keeps_iff]
  simp only [← Array.mem_toList_iff]
  have hnodes := hy.nodes
  generalize y.nodes.toList = ns at hnodes ⊢
  generalize y'.nodes.toList = ns' at hnodes ⊢
  induction hnodes with
  | nil => simp
  | cons hm _ ih => simp only [List.mem_cons, exists_eq_or_imp, ih, key_eq_iff hn hm]

end Frame.MovedBy

/-! ### Agreement -/

/-- The second text shows at the place of `x` what the first one shows at `x`. -/
def Agrees (d : Int) (t t' : Text) (x : Nat) : Prop :=
  ∀ x', Offset.MovedBy d x x' → t'.shows x' = t.shows x

/-- The texts agree on everything that a look has examined. -/
def LookAgrees (d : Int) (t t' : Text) (l : Look) : Prop :=
  ∀ x, l.start ≤ x → x < l.stop → Agrees d t t' x

theorem LookAgrees.agree {t t' : Text} {l : Look} (h : LookAgrees d t t' l) {o o' : Nat}
    (hstart : l.start = o) (ho : Offset.MovedBy d o o') : t.Agree t' o o' (l.stop - o) := by
  intro k hk
  exact h (o + k) (by omega) (by omega) (o' + k) (ho.add k)

/-- A scanner that finds the same where the texts agree. -/
theorem LookAgrees.movedBy {t t' : Text} {l l' : Look} (h : LookAgrees d t t' l) {o o' : Nat}
    (hin : l.Inside t o) (ho : Offset.MovedBy d o o')
    (hsame : t.Agree t' o o' (l.stop - o) → l' = l.moved o') : l.MovedBy d l' := by
  rw [hsame (h.agree hin.start ho)]
  exact hin.movedBy ho

/-- The same grammar on another text. -/
def Context.on (ctx : Context) (source : Source) : Context := { ctx with source }

variable {ctx : Context} {o o' : Nat}

/-- Every comment of the grammar is one that is found again where the same was looked at. -/
def Context.Fits (ctx : Context) : Prop := ∀ c ∈ ctx.grammar.comments, c.FitsWindow

/-- Ignored text ends at the same place and is found out by the same looks. -/
theorem skipped_moved (hfits : ctx.Fits) (ho : o ≤ ctx.source.size) (hp : PlaceMovedBy d src' o o')
    (h : ∀ l ∈ (skipped ctx o).2, LookAgrees d ctx.source.text src'.text l) :
    PlaceMovedBy d src' (skipped ctx o).1 (skipped (ctx.on src') o').1
      ∧ List.Forall₂ (Look.MovedBy d) (skipped ctx o).2 (skipped (ctx.on src') o').2 := by
  have hlinked := skipped_linked ho
  have hlinked' := skipped_linked (show o' ≤ (ctx.on src').source.size from hp.2)
  have hle := hlinked.le_stop
  have hplace : ∀ l ∈ (skipped ctx o).2, Offset.MovedBy d l.start (o' + (l.start - o)) :=
    fun l hl => hp.1.behind (hlinked.inside hl).1
  have heq : skipped (ctx.on src') o' = (o' + ((skipped ctx o).1 - o),
      (skipped ctx o).2.map fun l => l.moved (o' + (l.start - o))) := by
    unfold skipped at h hplace ⊢
    by_cases hskip : ctx.grammar.skipsIgnored = true
    · simp only [Context.on, hskip, if_true] at h hplace ⊢
      exact Scan.ignoredLooks_moved ho hp.2 hfits fun l hl =>
        (h l hl).agree rfl (hplace l hl)
    · simp [Context.on, hskip]
  refine ⟨⟨?_, hlinked'.stop_le⟩, ?_⟩
  · rw [heq]
    exact hp.1.behind hle
  · rw [heq, List.forall₂_map_right_iff, List.forall₂_same]
    exact fun l hl => (hlinked.inside hl).2.movedBy (hplace l hl)

/-! ### Tokens -/

/-- The bytes of a stretch that was looked at. -/
theorem slice_moved {src : Source} {l : Look} (h : LookAgrees d src.text src'.text l) {a a' b b' : Nat}
    (ha : Offset.MovedBy d a a') (hb : PlaceMovedBy d src' b b') (hla : l.start ≤ a) (hab : a ≤ b)
    (hbl : b ≤ l.stop) (hsize : b ≤ src.size) : src'.slice a' b' = src.slice a b := by
  obtain ⟨hb, hsize'⟩ := hb
  have hab' := (ha.le_iff hb).2 hab
  have hagree : src.text.Agree src'.text a a' (b - a) := by
    intro k hk
    exact h (a + k) (by omega) (by omega) (a' + k) (ha.add k)
  unfold Source.slice
  rw [if_neg (by omega), if_neg (by omega)]
  have := Text.slice_agree hagree (Nat.le_refl a) (by omega) hsize
  rwa [Nat.sub_self, Nat.add_zero, show a' + (b - a) = b' by
    unfold Offset.MovedBy at ha hb
    omega] at this

theorem nodeResult_fail {l : Look} (h : ∀ stop, l.reach ≠ .upTo stop) (reads : Footprint)
    (found : Nat → Footprint → Outcome) : nodeResult reads l found = ⟨.fail, reads.note l⟩ := by
  unfold nodeResult
  cases hreach : l.reach with
  | upTo stop => exact absurd hreach (h stop)
  | nothing => rfl
  | beyond => rfl

/-- A token that yields a node: the same look gives the same node. -/
theorem nodeResult_moved {l l' : Look} (hl : l.MovedBy d l') {reads reads' : Footprint}
    (hreads : reads.MovedBy d reads') {start start' : Nat} (hstart : Offset.MovedBy d start start')
    (hin' : l'.Inside src'.text start') {symbol depth : Nat} (ho : Offset.MovedBy d o o')
    {type : Bytes} {value value' : Nat → Value}
    (hvalue : ∀ stop stop', l.reach = .upTo stop → PlaceMovedBy d src' stop stop' →
      value' stop' = value stop) :
    Entry.MovedBy d src'
      (nodeResult reads l fun stop reads =>
        tokenNode ctx ⟨symbol, o⟩ depth start stop type (value stop) reads)
      (nodeResult reads' l' fun stop reads =>
        tokenNode (ctx.on src') ⟨symbol, o'⟩ depth start' stop type (value' stop) reads) := by
  by_cases hreach : ∃ stop, l.reach = .upTo stop
  · obtain ⟨stop, hreach⟩ := hreach
    obtain ⟨stop', hreach', hstop⟩ := hl.upTo hreach
    have hplace : PlaceMovedBy d src' stop stop' := ⟨hstop, (hin'.upTo hreach').2.1⟩
    simp only [nodeResult, hreach, hreach']
    refine ⟨.ok hplace (.one (.node ⟨rfl, ho, .node ?_ .nil⟩)), Footprint.movedBy_empty⟩
    exact { type := rfl, value := hvalue stop stop' hreach hplace, start := hstart, stop := hstop,
            invoked := ho, rule := rfl, depth := rfl, reads := hreads.note hl }
  · push Not at hreach
    rw [nodeResult_fail hreach, nodeResult_fail (hl.ne_upTo hreach)]
    exact ⟨.fail, hreads.note hl⟩

theorem foldl_note_moved {looks looks' : List Look}
    (h : List.Forall₂ (Look.MovedBy d) looks looks') {f f' : Footprint} (hf : f.MovedBy d f') :
    (looks.foldl Footprint.note f).MovedBy d (looks'.foldl Footprint.note f') := by
  induction h generalizing f f' with
  | nil => exact hf
  | cons hl _ ih => exact ih (hf.note hl)

theorem scanned_fail {l : Look} (h : ∀ stop, l.reach ≠ .upTo stop) (found : Nat → Outcome) :
    scanned l found = .fail := by
  unfold scanned
  cases hreach : l.reach with
  | upTo stop => exact absurd hreach (h stop)
  | nothing => rfl
  | beyond => rfl

/-- A scan that is a match: the same look leads to the same outcome. -/
theorem scanned_moved {l l' : Look} (hl : l.MovedBy d l') {start' : Nat}
    (hin' : l'.Inside src'.text start') {found found' : Nat → Outcome}
    (hfound : ∀ stop stop', l.reach = .upTo stop → PlaceMovedBy d src' stop stop' →
      (found stop).MovedBy d src' (found' stop')) :
    (scanned l found).MovedBy d src' (scanned l' found') := by
  by_cases hreach : ∃ stop, l.reach = .upTo stop
  · obtain ⟨stop, hreach⟩ := hreach
    obtain ⟨stop', hreach', hstop⟩ := hl.upTo hreach
    simp only [scanned, hreach, hreach']
    exact hfound stop stop' hreach ⟨hstop, (hin'.upTo hreach').2.1⟩
  · push Not at hreach
    rw [scanned_fail hreach, scanned_fail (hl.ne_upTo hreach)]
    exact .fail

/-- Behind the opening quote there is a closing one. -/
theorem quoted_upTo {t : Text} {start stop : Nat} (h : (Scan.quoted t start).reach = .upTo stop) :
    start + 2 ≤ stop := by
  unfold Scan.quoted at h
  split at h
  · cases h
  · split at h
    · split at h
      · next q hq =>
        have := Scan.closingQuote_mem hq
        cases h
        omega
      · cases h
    · cases h

/-- The place in front of the end moves along with it, unless nothing was matched. -/
theorem PlaceMovedBy.pred {stop stop' : Nat} (h : PlaceMovedBy d src' stop stop') {start start' : Nat}
    (hstart : PlaceMovedBy d src' start start') (hlt : start < stop) :
    PlaceMovedBy d src' (stop - 1) (stop' - 1) := by
  obtain ⟨h₁, h₂⟩ := h
  have h₃ := hstart.1
  unfold PlaceMovedBy Offset.MovedBy at *
  omega

/-- The place behind blanks was looked at, so it is the end in both texts or in none. -/
theorem blanks_end_iff {t t' : Text} {start start' : Nat} (hsize : start ≤ t.size)
    (hsize' : start' ≤ t'.size)
    (hagrees : LookAgrees d t t' (Scan.blanks t start))
    (hmoved : Offset.MovedBy d (t.scanWhile Byte.isBlank start) (t'.scanWhile Byte.isBlank start')) :
    t'.size ≤ t'.scanWhile Byte.isBlank start' ↔ t.size ≤ t.scanWhile Byte.isBlank start := by
  have hb := (Scan.blanks_inside hsize).upTo rfl
  have hb' := (Scan.blanks_inside hsize').upTo rfl
  have hlast : t.scanWhile Byte.isBlank start < (Scan.blanks t start).stop := by
    show _ < min (_ + 1) _
    omega
  have hshows := hagrees _ (by rw [(Scan.blanks_inside hsize).start]; exact hb.1) hlast _ hmoved
  rw [Text.shows_of_le hb.2.1, Text.shows_of_le hb'.2.1, Option.some.injEq] at hshows
  rw [← Array.getElem?_eq_none_iff, ← Array.getElem?_eq_none_iff, hshows]

/-- What comes out of a token, if the texts agree on everything that it has looked at. -/
theorem tokenResult_moved (hfits : ctx.Fits) (ho : o ≤ ctx.source.size)
    (hp : PlaceMovedBy d src' o o') {depth : Nat} {kind : TokenKind} {symbol : Nat}
    (h : ∀ l ∈ tokenLooks ctx kind o, LookAgrees d ctx.source.text src'.text l) :
    Entry.MovedBy d src' (tokenResult ctx depth kind ⟨symbol, o⟩)
      (tokenResult (ctx.on src') depth kind ⟨symbol, o'⟩) := by
  obtain ⟨hstart, hlooks⟩ := skipped_moved hfits ho hp fun l hl => h l (List.mem_append_left _ hl)
  have hreads := foldl_note_moved hlooks Footprint.movedBy_empty
  have hsize := (skipped_linked ho).stop_le
  have htoken : ∀ l ∈ tokenLook ctx.source.text (skipped ctx o).1 kind,
      LookAgrees d ctx.source.text src'.text l := fun l hl => h l (List.mem_append_right _ hl)
  unfold tokenResult
  dsimp only
  generalize (skipped ctx o).1 = start at hstart hsize htoken ⊢
  generalize (skipped (ctx.on src') o').1 = start' at hstart ⊢
  cases kind with
  | number =>
    have hagrees := htoken _ (List.mem_singleton_self _)
    have hin := Scan.number_inside hsize
    have hl := hagrees.movedBy hin hstart.1 (Scan.number_moved hsize hstart.2)
    refine nodeResult_moved hl hreads hstart.1 (Scan.number_inside hstart.2) hp.1
      fun stop stop' hreach hstop => ?_
    have hb := hin.upTo hreach
    exact congrArg Value.ofNumber
      (slice_moved hagrees hstart.1 hstop (Nat.le_of_eq hin.start) hb.1 hb.2.2 hb.2.1)
  | string =>
    have hagrees := htoken _ (List.mem_singleton_self _)
    have hin := Scan.quoted_inside hsize
    have hl := hagrees.movedBy hin hstart.1 (Scan.quoted_moved hsize hstart.2)
    refine nodeResult_moved hl hreads hstart.1 (Scan.quoted_inside hstart.2) hp.1
      fun stop stop' hreach hstop => ?_
    have hb := hin.upTo hreach
    have htwo := quoted_upTo hreach
    have hfirst := hin.start
    have hlt : stop - 1 ≤ ctx.source.size := Nat.le_trans (Nat.sub_le _ _) hb.2.1
    have hlast := hstop.pred hstart (by omega)
    exact congrArg Value.text
      (slice_moved hagrees (hstart.1.add 1) hlast (by omega) (by omega) (by omega) hlt)
  | ident =>
    have hagrees := htoken _ (List.mem_singleton_self _)
    have hin := Scan.identifier_inside hsize
    have hl := hagrees.movedBy hin hstart.1 (Scan.identifier_moved hsize hstart.2)
    refine nodeResult_moved hl hreads hstart.1 (Scan.identifier_inside hstart.2) hp.1
      fun stop stop' hreach hstop => ?_
    have hb := hin.upTo hreach
    exact congrArg Value.text
      (slice_moved hagrees hstart.1 hstop (Nat.le_of_eq hin.start) hb.1 hb.2.2 hb.2.1)
  | newline =>
    have hagrees := htoken _ (List.mem_singleton_self _)
    have hl := hagrees.movedBy (Scan.newline_inside hsize) hstart.1
      (Scan.newline_moved hsize hstart.2)
    refine ⟨scanned_moved hl (Scan.newline_inside hstart.2) fun stop stop' _ hstop => ?_,
      hreads.note hl⟩
    exact .ok hstop Yield.alike_empty
  | endOfInput =>
    have hagrees := htoken _ (List.mem_singleton_self _)
    have hin := Scan.blanks_inside hsize
    have hin' := Scan.blanks_inside hstart.2
    have hl := hagrees.movedBy hin hstart.1 (Scan.blanks_moved hsize hstart.2)
    obtain ⟨stop', hreach', hstop⟩ := hl.upTo rfl
    cases hreach'
    have hend := blanks_end_iff hsize hstart.2 hagrees hstop
    refine ⟨?_, hreads.note hl⟩
    show Outcome.MovedBy d src' (if _ then _ else _)
      (if src'.text.size ≤ src'.text.scanWhile Byte.isBlank start' then _ else _)
    by_cases hle : ctx.source.text.size ≤ ctx.source.text.scanWhile Byte.isBlank start
    · rw [if_pos hle, if_pos (hend.2 hle)]
      exact .ok ⟨hstop, (hin'.upTo rfl).2.1⟩ Yield.alike_empty
    · rw [if_neg hle, if_neg (hle ∘ hend.1)]
      exact .fail
  | indent => exact ⟨.fail, hreads⟩
  | dedent => exact ⟨.fail, hreads⟩

/-! ### Literals and classes -/

theorem length_slice {src : Source} {a b : Nat} (hab : a ≤ b) (hb : b ≤ src.size) :
    (src.slice a b).length = b - a := by
  unfold Source.slice
  rw [if_neg (by omega)]
  have : b ≤ src.text.size := hb
  simp only [Text.slice, Array.length_toList, Array.size_extract]
  omega

/-- A piece of text between two places that correspond. -/
theorem text_alike {N : Key × Subtree → Key × Subtree → Prop} {bytes : Bytes} {stop stop' : Nat}
    (ho : PlaceMovedBy d src' o o') (hstop : PlaceMovedBy d src' stop stop')
    (hlength : o + bytes.length = stop) :
    Piece.Alike (PlaceMovedBy d src') N (.text bytes o) (.text bytes o') := by
  have heq : o' + bytes.length = stop' := by
    have h₁ := ho.1
    have h₂ := hstop.1
    unfold Offset.MovedBy at h₁ h₂
    omega
  exact .text ho (by rw [hlength, heq]; exact hstop)

theorem literal_upTo {t : Text} {text : Bytes} {isWord : Bool} {stop : Nat}
    (h : (Scan.literal t text isWord o).reach = .upTo stop) : o + text.length = stop := by
  simp only [Scan.literal, Scan.look] at h
  split at h
  · split at h
    · exact Reach.upTo.inj h
    · cases h
  · split at h <;> cases h

theorem literal_scanned_moved {text : Bytes} {isWord : Bool} (ho : o ≤ ctx.source.size)
    (hp : PlaceMovedBy d src' o o')
    (h : LookAgrees d ctx.source.text src'.text (Scan.literal ctx.source.text text isWord o)) :
    Look.MovedBy d (Scan.literal ctx.source.text text isWord o) (Scan.literal src'.text text isWord o')
      ∧ Outcome.MovedBy d src'
        (scanned (Scan.literal ctx.source.text text isWord o) fun stop => .ok stop (.one (.text text o)))
        (scanned (Scan.literal src'.text text isWord o') fun stop =>
          .ok stop (.one (.text text o'))) := by
  have hl := h.movedBy (Scan.literal_inside ho text isWord) hp.1 (Scan.literal_moved ho hp.2)
  refine ⟨hl, scanned_moved hl (Scan.literal_inside hp.2 text isWord) fun stop stop' hreach hstop => ?_⟩
  exact .ok hstop (.one (text_alike hp hstop (literal_upTo hreach)))

theorem byte_scanned_moved {inside : UInt8 → Bool} (ho : o ≤ ctx.source.size)
    (hp : PlaceMovedBy d src' o o')
    (h : LookAgrees d ctx.source.text src'.text (Scan.byte ctx.source.text inside o)) :
    Look.MovedBy d (Scan.byte ctx.source.text inside o) (Scan.byte src'.text inside o')
      ∧ Outcome.MovedBy d src'
        (scanned (Scan.byte ctx.source.text inside o) fun stop =>
          .ok stop (.one (.text (ctx.source.slice o stop) o)))
        (scanned (Scan.byte src'.text inside o') fun stop =>
          .ok stop (.one (.text (src'.slice o' stop) o'))) := by
  have hin := Scan.byte_inside ho inside
  have hl := h.movedBy hin hp.1 (Scan.byte_moved ho hp.2)
  refine ⟨hl, scanned_moved hl (Scan.byte_inside hp.2 inside) fun stop stop' hreach hstop => ?_⟩
  have hb := hin.upTo hreach
  rw [slice_moved h hp.1 hstop (Nat.le_of_eq hin.start) hb.1 hb.2.2 hb.2.1]
  refine .ok hstop (.one (text_alike hp hstop ?_))
  rw [length_slice hb.1 hb.2.1]
  exact Nat.add_sub_of_le hb.1

/-! ### Rules -/

theorem operatorLeaf?_moved (ctx ctx' : Context) (depth : Nat) :
    LeavesAlike (PlaceMovedBy d src') (Subtree.MovedBy d) ctx ctx' depth depth := by
  intro bytes o o' ho hstop
  unfold operatorLeaf?
  split
  · exact .none
  · refine .some (.node ?_ .nil)
    exact { type := rfl, value := rfl, start := ho.1, stop := hstop.1, invoked := ho.1, rule := rfl,
            depth := rfl, reads := Footprint.movedBy_empty }

/-- A node around corresponding yields. -/
theorem wrap_moved {ctx ctx' : Context} {info info' : NodeInfo} (hinfo : info.MovedBy d info')
    {y y' : Yield} (hy : y.Alike (PlaceMovedBy d src') (NodeMovedBy d) y') :
    (y.wrap ctx info).MovedBy d (y'.wrap ctx' info') := by
  refine hy.wrap (fun _ _ hn => hn.tree) ?_ (fun _ _ hcs => .node hinfo hcs) fun bytes => ?_
  · rw [hinfo.depth]
    exact operatorLeaf?_moved ctx ctx' info.depth
  · exact .node { hinfo with value := rfl } .nil

/-- What comes out of a rule, if its pattern and its frame correspond. -/
theorem ruleResult_moved (ctx : Context) (depth id : Nat) (rule : Rule) {start start' : Nat}
    (ho : Offset.MovedBy d o o') (hstart : Offset.MovedBy d start start') {out out' : Outcome}
    (hout : out.MovedBy d src' out') {frame frame' : Frame} (hframe : frame.MovedBy d frame') :
    (ruleResult ctx depth rule ⟨id, o⟩ start out frame).MovedBy d src'
      (ruleResult (ctx.on src') depth rule ⟨id, o'⟩ start' out' frame') := by
  cases hout with
  | fail => exact ⟨.fail, hframe.total⟩
  | ok hstop hy =>
    simp only [ruleResult]
    split
    · exact ⟨.ok hstop hy, hframe.settle hy⟩
    · refine ⟨.ok hstop (.one (.node ⟨rfl, ho, wrap_moved ?_ hy⟩)), Footprint.movedBy_empty⟩
      exact { type := rfl, value := rfl, start := hstart, stop := hstop.1, invoked := ho, rule := rfl,
              depth := rfl, reads := hframe.settle hy }

end Parse

end Packrat
