import Packrat.Proofs.Parse.Yields
import Packrat.Proofs.Scan.Settling

/-!
A parse tree accounts for its text.

Every byte of a parsed text that is no white space lies in exactly one leaf of the tree, or in a comment
between the leaves, the latter only if ignored text is skipped at all; and the values of rules and
tokens are the bytes that they stand for.

A match consumes text in four ways: it skips ignored text, takes white space that leaves nothing behind,
or yields a piece of text or a leaf.  So between its start and its end everything is accounted for
(`Accounted`), and what a match yields says what stands in the text (`Spelled`); both are shown along
the pieces of a yield and then read off the tree of the document (`Parser.parse_accounts`).
-/

namespace Packrat

/-! ### Stretches of the text -/

theorem Source.slice_eq {src : Source} {a b : Nat} (hab : a ≤ b) (hb : b ≤ src.size) :
    src.slice a b = src.text.slice a b := by
  unfold Source.slice
  rw [if_neg (by omega)]

/-- The bytes of a stretch are those of the text. -/
theorem Source.getElem?_slice {src : Source} {a b k : Nat} (hab : a ≤ b) (hb : b ≤ src.size)
    (hk : k < b - a) : (src.slice a b)[k]? = src.text[a + k]? := by
  have hsize : b ≤ src.text.size := hb
  rw [Source.slice_eq hab hb, Text.slice, Array.getElem?_toList, Array.getElem?_extract,
    if_pos (by omega)]

/-- A text that is found somewhere is what stands there. -/
theorem Source.slice_of_startsAt {src : Source} {bytes : Bytes} {a : Nat}
    (h : src.text.startsAt bytes a = true) (hsize : a + bytes.length ≤ src.size) :
    bytes = src.slice a (a + bytes.length) := by
  have hget : ∀ {bytes : Bytes} {a : Nat}, src.text.startsAt bytes a = true → ∀ k < bytes.length,
      bytes[k]? = src.text[a + k]? := by
    intro bytes
    induction bytes with
    | nil => exact fun _ k hk => absurd hk (Nat.not_lt_zero k)
    | cons b bs ih =>
      intro a hstarts k hk
      rw [Text.startsAt, Bool.and_eq_true, beq_iff_eq] at hstarts
      cases k with
      | zero => exact hstarts.1.symm
      | succ k =>
        rw [List.getElem?_cons_succ, ih hstarts.2 k (Nat.lt_of_succ_lt_succ hk), Nat.add_right_comm]
        rfl
  refine List.ext_getElem? fun k => ?_
  by_cases hk : k < bytes.length
  · rw [Source.getElem?_slice (Nat.le_add_right _ _) hsize (by omega)]
    exact hget h k hk
  · have hlen := Parse.length_slice (Nat.le_add_right a bytes.length) hsize
    rw [List.getElem?_eq_none (by omega), List.getElem?_eq_none (by omega)]

/-- A stretch of two bytes or more, cut at both ends. -/
theorem Source.slice_eq_cons {src : Source} {a b : Nat} (hab : a + 2 ≤ b) (hb : b ≤ src.size) :
    ∃ first last, src.slice a b = first :: src.slice (a + 1) (b - 1) ++ [last] := by
  have hsize : b ≤ src.text.size := hb
  obtain ⟨first, hfirst⟩ : ∃ c, src.text[a]? = some c := ⟨_, Array.getElem?_eq_getElem (by omega)⟩
  obtain ⟨last, hlast⟩ : ∃ c, src.text[b - 1]? = some c := ⟨_, Array.getElem?_eq_getElem (by omega)⟩
  refine ⟨first, last, List.ext_getElem? fun k => ?_⟩
  rw [Source.slice_eq (by omega) hb, Source.slice_eq (by omega) (by omega)]
  simp only [Text.slice, List.getElem?_cons, List.getElem?_append, Array.getElem?_toList,
    Array.getElem?_extract]
  grind

theorem Value.ofNumber_ne_text (bs bytes : Bytes) : Value.ofNumber bs ≠ .text bytes := by
  unfold Value.ofNumber
  dsimp only
  split <;> simp

/-- A text value is the text of the node; that of a string token comes without the quotes. -/
structure NodeInfo.Spelled (src : Source) (i : NodeInfo) : Prop where
  word : ∀ bytes, i.value = .text bytes → (i.rule.isSome = true ∨ i.type = Bytes.ascii "Operator"
    ∨ i.type = Bytes.ascii "Identifier") → bytes = src.slice i.start i.stop
  quoted : i.rule = none → i.type = Bytes.ascii "String" →
    i.start + 2 ≤ i.stop ∧ i.value = .text (src.slice (i.start + 1) (i.stop - 1))

namespace Parse

variable {ctx : Context} {g : Goal} {o m stop : Nat} {out : Outcome} {y : Yield} {tr : List Event}

/-- Ignored text is skipped all at once. -/
theorem skipped_skipped (ho : o ≤ ctx.source.size) :
    (skipped ctx (skipped ctx o).1).1 = (skipped ctx o).1 := by
  unfold skipped
  split
  · exact Scan.ignoredLooks_ignoredLooks ho _
  · rfl

/-! ### What is consumed -/

/-- The place of a byte that is no white space. -/
def Solid (src : Source) (x : Nat) : Prop := ∃ b, src.text[x]? = some b ∧ Byte.isSpace b = false

theorem Spaces.not_solid {src : Source} {a b x : Nat} (h : Spaces src a b) (h₁ : a ≤ x) (h₂ : x < b) :
    ¬Solid src x := by
  rintro ⟨c, hc, hsolid⟩
  obtain ⟨c', hc', hspace⟩ := h x h₁ h₂
  cases hc.symm.trans hc'
  rw [hspace] at hsolid
  cases hsolid

/-- A comment of the grammar is accepted at `a` and ends at `b`, while ignored text is skipped. -/
def CommentAt (ctx : Context) (a b : Nat) : Prop :=
  ctx.grammar.skipsIgnored = true
    ∧ ∃ c ∈ ctx.grammar.comments, (Scan.comment ctx.source.text c a).reach = .upTo b

/-- Every byte between `o` and `stop` that is no white space lies in one of the stretches, or in a
comment that misses all of them. -/
def Accounted (ctx : Context) (o stop : Nat) (spans : List (Nat × Nat)) : Prop :=
  ∀ x, o ≤ x → x < stop → Solid ctx.source x → (∃ s ∈ spans, s.1 ≤ x ∧ x < s.2)
    ∨ ∃ a b, CommentAt ctx a b ∧ o ≤ a ∧ a ≤ x ∧ x < b ∧ b ≤ stop ∧ ∀ s ∈ spans, s.2 ≤ a ∨ b ≤ s.1

namespace Accounted

variable {spans spans' : List (Nat × Nat)}

theorem refl (ctx : Context) (o : Nat) : Accounted ctx o o [] := fun _ h₁ h₂ => by omega

theorem single (ctx : Context) (o stop : Nat) : Accounted ctx o stop [(o, stop)] :=
  fun _ h₁ h₂ _ => .inl ⟨_, List.mem_singleton_self _, h₁, h₂⟩

theorem spaces (h : Spaces ctx.source o stop) : Accounted ctx o stop [] :=
  fun _ h₁ h₂ hsolid => absurd hsolid (h.not_solid h₁ h₂)

/-- Ignored text is accounted for. -/
theorem skipped (ho : o ≤ ctx.source.size) : Accounted ctx o (skipped ctx o).1 [] := by
  unfold Parse.skipped
  by_cases hskip : ctx.grammar.skipsIgnored = true
  · rw [if_pos hskip]
    intro x h₁ h₂ hsolid
    rcases Scan.ignoredWithin_ignorable.blank_or_commented ho h₁ h₂ with
      ⟨b, hb, hblank⟩ | ⟨c, hc, a, b, hreach, h⟩
    · obtain ⟨b', hb', hspace⟩ := hsolid
      cases hb.symm.trans hb'
      rw [isSpace_of_isBlank hblank] at hspace
      cases hspace
    · exact .inr ⟨a, b, ⟨hskip, c, hc, hreach⟩, h.1, h.2.1, h.2.2.1, h.2.2.2, by simp⟩
  · rw [if_neg hskip]
    exact .refl ctx o

/-- What follows each other: no stretch reaches into the other part. -/
theorem append (h : Accounted ctx o m spans) (h' : Accounted ctx m stop spans') (hom : o ≤ m)
    (hms : m ≤ stop) (hspans : ∀ s ∈ spans, s.2 ≤ m) (hspans' : ∀ s ∈ spans', m ≤ s.1) :
    Accounted ctx o stop (spans ++ spans') := by
  intro x h₁ h₂ hsolid
  rcases Nat.lt_or_ge x m with hlt | hge
  · rcases h x h₁ hlt hsolid with ⟨s, hs, hx⟩ | ⟨a, b, hc, h₃, h₄, h₅, h₆, hmiss⟩
    · exact .inl ⟨s, List.mem_append_left _ hs, hx⟩
    · refine .inr ⟨a, b, hc, h₃, h₄, h₅, Nat.le_trans h₆ hms, fun s hs => ?_⟩
      rcases List.mem_append.1 hs with hs | hs
      · exact hmiss s hs
      · exact .inr (Nat.le_trans h₆ (hspans' s hs))
  · rcases h' x hge h₂ hsolid with ⟨s, hs, hx⟩ | ⟨a, b, hc, h₃, h₄, h₅, h₆, hmiss⟩
    · exact .inl ⟨s, List.mem_append_right _ hs, hx⟩
    · refine .inr ⟨a, b, hc, Nat.le_trans hom h₃, h₄, h₅, h₆, fun s hs => ?_⟩
      rcases List.mem_append.1 hs with hs | hs
      · exact .inl (Nat.le_trans (hspans s hs) h₃)
      · exact hmiss s hs

/-- Ignored text in front. -/
theorem behind_skipped (ho : o ≤ ctx.source.size) (h : Accounted ctx (Parse.skipped ctx o).1 stop spans)
    (hstop : (Parse.skipped ctx o).1 ≤ stop) (hspans : ∀ s ∈ spans, (Parse.skipped ctx o).1 ≤ s.1) :
    Accounted ctx o stop spans :=
  (Accounted.skipped ho).append h (skipped_linked ho).le_stop hstop (by simp) hspans

/-- Stretches of white space can be left out. -/
theorem narrow (h : Accounted ctx o stop spans) (hsub : spans' ⊆ spans)
    (hkeep : ∀ s ∈ spans, ∀ x, s.1 ≤ x → x < s.2 → Solid ctx.source x → s ∈ spans') :
    Accounted ctx o stop spans' := by
  intro x h₁ h₂ hsolid
  rcases h x h₁ h₂ hsolid with ⟨s, hs, hx⟩ | ⟨a, b, hc, h₃, h₄, h₅, h₆, hmiss⟩
  · exact .inl ⟨s, hkeep s hs x hx.1 hx.2 hsolid, hx⟩
  · exact .inr ⟨a, b, hc, h₃, h₄, h₅, h₆, fun s hs => hmiss s (hsub hs)⟩

end Accounted

/-! ### The stretches of a yield -/

/-- The stretches that the leaves of a tree take. -/
def leafSpans (t : Subtree) : List (Nat × Nat) := t.leaves.map fun i => (i.start, i.stop)

/-- The stretches that a piece takes. -/
def Piece.spans : Piece → List (Nat × Nat)
  | .node _ tree => leafSpans tree
  | .text bytes a => [(a, a + bytes.length)]

def Yield.spans (y : Yield) : List (Nat × Nat) := y.pieces.toList.flatMap Piece.spans

theorem leafSpans_flat (t : Subtree) : leafSpans t.flat = leafSpans t := by
  unfold leafSpans
  rw [Subtree.leaves_flat, List.map_map]
  rfl

theorem Yield.spans_flat (y : Yield) : y.flat.spans = y.spans := by
  unfold Yield.spans
  rw [Yield.pieces_flat, Array.toList_map, List.flatMap_map]
  refine List.flatMap_congr fun p _ => ?_
  cases p with
  | node key tree => exact leafSpans_flat tree
  | text bytes a => rfl

/-- The stretches of pieces in a row lie where the pieces do. -/
theorem Lined.spans_within (h : Lined o stop y.pieces.toList) :
    ∀ s ∈ y.spans, o ≤ s.1 ∧ s.2 ≤ stop := by
  intro s hs
  obtain ⟨p, hp, hs⟩ := List.mem_flatMap.1 hs
  have hin := h.within p hp
  cases p with
  | node key tree =>
    obtain ⟨i, hi, rfl⟩ := List.mem_map.1 hs
    have hnested := h.nested key tree hp
    have hleaf := hnested.leaves_within i hi
    have hinvoked := hnested.invoked_le
    simp only [Piece.first, Piece.last] at hin ⊢
    omega
  | text bytes a =>
    cases List.mem_singleton.1 hs
    simp only [Piece.first, Piece.last] at hin ⊢
    omega

/-! ### What is said about the text -/

/-- A piece says what stands in the text. -/
def Piece.Spelled (src : Source) : Piece → Prop
  | .node _ tree => ∀ i ∈ tree.nodes, i.Spelled src
  | .text bytes a => a + bytes.length ≤ src.size ∧ bytes = src.slice a (a + bytes.length)

theorem Piece.Spelled.flat {src : Source} {p : Piece} (h : p.Spelled src) : p.flat.Spelled src := by
  cases p with
  | node key tree =>
    intro i hi
    rw [Subtree.nodes_flat] at hi
    obtain ⟨j, hj, rfl⟩ := List.mem_map.1 hi
    exact ⟨(h j hj).word, (h j hj).quoted⟩
  | text bytes a => exact h

/-- A text that is not all white space has a place that is solid, and the other way round. -/
theorem solid_of_text {src : Source} {bytes : Bytes} {a x : Nat} (h : (Piece.text bytes a).Spelled src)
    (h₁ : a ≤ x) (h₂ : x < a + bytes.length) (hsolid : Solid src x) :
    bytes.all Byte.isSpace = false := by
  obtain ⟨b, hb, hspace⟩ := hsolid
  have hget : bytes[x - a]? = some b := by
    rw [h.2, Source.getElem?_slice (Nat.le_add_right _ _) h.1 (by omega), ← hb]
    congr 1
    omega
  rw [List.all_eq_false]
  exact ⟨b, List.mem_of_getElem? hget, by simpa using hspace⟩

/-- The leaf of a piece of text says what stands in the text. -/
theorem operatorLeaf?_spelled {depth : Nat} {bytes : Bytes} {a : Nat} {c : Subtree}
    (h : operatorLeaf? ctx depth bytes a = some c) (hp : (Piece.text bytes a).Spelled ctx.source) :
    ∀ i ∈ c.nodes, i.Spelled ctx.source := by
  rw [operatorLeaf?_eq_some h]
  intro i hi
  rw [Subtree.nodes_node, List.flatMap_nil, List.mem_singleton] at hi
  subst hi
  refine ⟨fun bytes' hvalue _ => ?_, fun _ htype => ?_⟩
  · cases hvalue
    exact hp.2
  · exact absurd (show Bytes.ascii "Operator" = Bytes.ascii "String" from htype) (by decide)

/-- A node around pieces that say what stands in the text. -/
theorem wrap_spelled {info : NodeInfo} (hp : ∀ p ∈ y.pieces, p.Spelled ctx.source)
    (hnode : ∀ value, value = .empty ∨ (∃ bytes a, y = .one (.text bytes a) ∧ value = .text bytes) →
      ({ info with value } : NodeInfo).Spelled ctx.source) (hempty : info.value = .empty) :
    ∀ i ∈ (y.wrap ctx info).nodes, i.Spelled ctx.source := by
  have hinfo : info.Spelled ctx.source := by
    have := hnode .empty (.inl rfl)
    rwa [← hempty] at this
  cases y with
  | one p =>
    have hpiece := hp p (by simp [Yield.pieces])
    cases p with
    | node key tree =>
      intro i hi
      rcases Subtree.mem_nodes_node.1 hi with rfl | ⟨c, hc, hi⟩
      · exact hinfo
      · cases List.mem_singleton.1 hc
        exact hpiece i hi
    | text bytes a =>
      intro i hi
      rcases Subtree.mem_nodes_node.1 hi with rfl | ⟨c, hc, hi⟩
      · exact hnode _ (.inr ⟨bytes, a, rfl, rfl⟩)
      · cases hc
  | many ps =>
    intro i hi
    rcases Subtree.mem_nodes_node.1 hi with rfl | ⟨c, hc, hi⟩
    · exact hinfo
    · obtain ⟨p, hmem, hchild⟩ := List.mem_filterMap.1 hc
      have hpiece := hp p (Array.mem_toList_iff.1 hmem)
      obtain ⟨-, -, ⟨key, rfl⟩ | ⟨bytes, a, rfl, hleaf⟩⟩ := Piece.child?_eq_some hchild
      · exact hpiece i hi
      · exact operatorLeaf?_spelled hleaf hpiece i hi

/-- The leaves of a node account for what its pieces do. -/
theorem wrap_accounted {info : NodeInfo} (hp : ∀ p ∈ y.pieces, p.Spelled ctx.source)
    (h : Accounted ctx info.start info.stop y.spans) :
    Accounted ctx info.start info.stop (leafSpans (y.wrap ctx info)) := by
  cases y with
  | one p =>
    cases p with
    | node key tree =>
      have : leafSpans (.node info [tree]) = Yield.spans (.one (.node key tree)) := by
        unfold leafSpans
        rw [Subtree.leaves_node info (List.cons_ne_nil _ _)]
        simp [Yield.spans, Yield.pieces, Piece.spans, leafSpans]
      show Accounted ctx _ _ (leafSpans (.node info [tree]))
      rw [this]
      exact h
    | text bytes a =>
      show Accounted ctx _ _ (leafSpans (.node _ []))
      unfold leafSpans
      rw [Subtree.leaves_leaf]
      exact .single ctx _ _
  | many ps =>
    show Accounted ctx _ _ (leafSpans (.node info (ps.toList.filterMap (Piece.child? ctx info.depth))))
    by_cases hnil : ps.toList.filterMap (Piece.child? ctx info.depth) = []
    · rw [hnil, leafSpans, Subtree.leaves_leaf]
      exact .single ctx _ _
    · -- a piece and the child that it becomes take the same stretches
      have hspans : ∀ {p : Piece} {c : Subtree}, p.child? ctx info.depth = some c →
          leafSpans c = p.spans := by
        intro p c hchild
        obtain ⟨-, -, ⟨key, rfl⟩ | ⟨bytes, a, rfl, hleaf⟩⟩ := Piece.child?_eq_some hchild
        · rfl
        · rw [operatorLeaf?_eq_some hleaf, leafSpans, Subtree.leaves_leaf]
          rfl
      have hleaves : leafSpans (.node info (ps.toList.filterMap (Piece.child? ctx info.depth)))
          = (ps.toList.filterMap (Piece.child? ctx info.depth)).flatMap leafSpans := by
        unfold leafSpans
        rw [Subtree.leaves_node info hnil, List.map_flatMap]
      rw [hleaves]
      refine h.narrow ?_ ?_
      · intro s hs
        obtain ⟨c, hc, hs⟩ := List.mem_flatMap.1 hs
        obtain ⟨p, hmem, hchild⟩ := List.mem_filterMap.1 hc
        exact List.mem_flatMap.2 ⟨p, hmem, by rwa [hspans hchild] at hs⟩
      · intro s hs x h₁ h₂ hsolid
        obtain ⟨p, hmem, hs⟩ := List.mem_flatMap.1 hs
        have hchild : ∃ c, p.child? ctx info.depth = some c := by
          cases p with
          | node key tree => exact ⟨tree, rfl⟩
          | text bytes a =>
            cases List.mem_singleton.1 hs
            have hsome := solid_of_text (hp _ (Array.mem_toList_iff.1 hmem)) h₁ h₂ hsolid
            simp [Piece.child?, operatorLeaf?, hsome]
        obtain ⟨c, hchild⟩ := hchild
        refine List.mem_flatMap.2 ⟨c, List.mem_filterMap.2 ⟨p, hmem, hchild⟩, ?_⟩
        rw [hspans hchild]
        exact hs

/-! ### Matches -/

/-- What a match yields says what stands in the text and accounts for everything that was consumed. -/
structure Told (ctx : Context) (o stop : Nat) (y : Yield) : Prop where
  spelled : ∀ p ∈ y.pieces, p.Spelled ctx.source
  /-- A text on its own is all that was consumed, but for ignored text in front. -/
  exact : ∀ bytes a, y = .one (.text bytes a) →
    (a = o ∨ a = (skipped ctx o).1) ∧ a + bytes.length = stop
  accounted : Accounted ctx o stop y.spans

theorem Told.text {bytes : Bytes} {a : Nat} (ho : o ≤ ctx.source.size)
    (ha : a = o ∨ a = (skipped ctx o).1) (hstop : a + bytes.length = stop)
    (hsize : stop ≤ ctx.source.size) (hbytes : bytes = ctx.source.slice a (a + bytes.length)) :
    Told ctx o stop (.one (.text bytes a)) where
  spelled := by
    intro p hp
    cases Array.mem_singleton.1 hp
    exact ⟨by omega, hbytes⟩
  exact := by
    rintro _ _ ⟨⟩
    exact ⟨ha, hstop⟩
  accounted := by
    subst hstop
    show Accounted ctx o _ [(a, a + bytes.length)]
    rcases ha with rfl | rfl
    · exact .single ctx _ _
    · exact (Accounted.single ctx _ _).behind_skipped ho (Nat.le_add_right _ _) (by simp)

theorem literal_startsAt {t text : _} {isWord : Bool} (h : (Scan.literal t text isWord o).reach = .upTo stop) :
    t.startsAt text o = true := by
  simp only [Scan.literal, Scan.look] at h
  split at h
  · split at h
    · next hfound =>
      rw [Bool.and_eq_true] at hfound
      exact hfound.1
    · cases h
  · split at h <;> cases h

theorem Yield.flat_eq_text {bytes : Bytes} {a : Nat} (h : y.flat = .one (.text bytes a)) :
    y = .one (.text bytes a) := by
  cases y with
  | one p =>
    cases p with
    | node key tree => cases h
    | text bytes' a' => cases h; rfl
  | many ps => cases h

theorem Told.literal {text : Bytes} (ho : o ≤ ctx.source.size)
    (hreach : (Scan.literal ctx.source.text text (isWord text) (skipped ctx o).1).reach = .upTo stop) :
    Told ctx o stop (.one (.text text (skipped ctx o).1)) := by
  have hstart := (skipped_linked ho).stop_le
  have hlen := literal_upTo hreach
  have hsize := ((Scan.literal_inside hstart text (isWord text)).upTo hreach).2.1
  exact .text ho (.inr rfl) hlen hsize
    (Source.slice_of_startsAt (literal_startsAt hreach) (by rw [hlen]; exact hsize))

theorem Told.byte {inside : UInt8 → Bool} (ho : o ≤ ctx.source.size)
    (hreach : (Scan.byte ctx.source.text inside o).reach = .upTo stop) :
    Told ctx o stop (.one (.text (ctx.source.slice o stop) o)) := by
  obtain ⟨h₁, h₂, -⟩ := (Scan.byte_inside ho inside).upTo hreach
  have hlen : o + (ctx.source.slice o stop).length = stop := by
    rw [length_slice h₁ h₂]
    omega
  exact .text ho (.inl rfl) hlen h₂ (by rw [hlen])

/-- The value of a number is no text, and the other tokens have the text of their node. -/
theorem TokenLeaf.spelled {info : NodeInfo} (h : TokenLeaf ctx o stop info) :
    info.Spelled ctx.source := by
  rcases h.value with ⟨htype, hvalue⟩ | ⟨htype, hlen, hvalue⟩ | ⟨htype, hvalue⟩
  · refine ⟨fun bytes hbytes => ?_, fun _ htype' => absurd (htype.symm.trans htype') (by decide)⟩
    rw [hvalue] at hbytes
    exact absurd hbytes (Value.ofNumber_ne_text _ _)
  · refine ⟨fun bytes hbytes hkind => ?_, fun _ _ => ⟨hlen, hvalue⟩⟩
    rw [h.rule, htype] at hkind
    exact absurd hkind (by decide)
  · refine ⟨fun bytes hbytes _ => ?_, fun _ htype' => absurd (htype.symm.trans htype') (by decide)⟩
    rw [hvalue] at hbytes
    exact (Value.text.inj hbytes).symm

theorem Told.leaf {key : Key} {info : NodeInfo} (ho : o ≤ ctx.source.size)
    (hleaf : TokenLeaf ctx o stop info) : Told ctx o stop (.one (.node key (.node info []))) where
  spelled := by
    intro p hp
    cases Array.mem_singleton.1 hp
    intro i hi
    rw [Subtree.nodes_node, List.flatMap_nil, List.mem_singleton] at hi
    exact hi ▸ hleaf.spelled
  exact := fun _ _ h => (by cases h)
  accounted := by
    have hspans : Yield.spans (.one (.node key (.node info []))) = [((skipped ctx o).1, stop)] := by
      rw [← hleaf.start, ← hleaf.ends]
      simp [Yield.spans, Yield.pieces, Piece.spans, leafSpans, Subtree.leaves_leaf]
    rw [hspans]
    exact (Accounted.single ctx _ _).behind_skipped ho hleaf.start_le (by simp)

/-- A fragment passes on what its pattern has told, with ignored text in front. -/
theorem Told.fragment {rule : Rule} (ho : o ≤ ctx.source.size)
    (hd : Derives ctx (.expr rule.pattern) (skipped ctx o).1 (.ok stop y) tr)
    (h : Told ctx (skipped ctx o).1 stop y) : Told ctx o stop y.flat where
  spelled := by
    intro p hp
    rw [Yield.pieces_flat] at hp
    obtain ⟨q, hq, rfl⟩ := Array.mem_map.1 hp
    exact (h.spelled q hq).flat
  exact := by
    intro bytes a heq
    obtain rfl : y = .one (.text bytes a) := Yield.flat_eq_text heq
    obtain ⟨ha, hlen⟩ := h.exact bytes a rfl
    rw [skipped_skipped ho, or_self] at ha
    exact ⟨.inr ha, hlen⟩
  accounted := by
    have hstart := (skipped_linked ho).stop_le
    rw [Yield.spans_flat]
    exact h.accounted.behind_skipped ho (hd.bounds hstart rfl).1
      fun s hs => ((hd.lined hstart rfl).spans_within s hs).1

/-- The nodes of a rule say what stands in the text: a text that is all of the pattern is the text of the
node. -/
theorem Told.node_spelled {id : Nat} {rule : Rule} {reads : Footprint} (ho : o ≤ ctx.source.size)
    (h : Told ctx (skipped ctx o).1 stop y) :
    ∀ i ∈ (y.wrap ctx (ruleInfo ctx 0 rule ⟨id, o⟩ (skipped ctx o).1 stop reads)).nodes,
      i.Spelled ctx.source := by
  refine wrap_spelled h.spelled ?_ rfl
  rintro value (rfl | ⟨bytes, a, rfl, rfl⟩)
  · exact ⟨fun _ h => (by cases h), fun h => (by cases h)⟩
  · refine ⟨?_, fun h => (by cases h)⟩
    rintro _ ⟨⟩ -
    obtain ⟨ha, hlen⟩ := h.exact bytes a rfl
    rw [skipped_skipped ho, or_self] at ha
    have hpiece := (h.spelled (.text bytes a) (by simp [Yield.pieces])).2
    rw [hlen, ha] at hpiece
    exact hpiece

/-- The leaves of a rule account for what its pattern has consumed, and for ignored text in front. -/
theorem Told.node_accounted {id : Nat} {rule : Rule} {reads : Footprint} (ho : o ≤ ctx.source.size)
    (hd : Derives ctx (.expr rule.pattern) (skipped ctx o).1 (.ok stop y) tr)
    (h : Told ctx (skipped ctx o).1 stop y) :
    Accounted ctx o stop
      (leafSpans (y.wrap ctx (ruleInfo ctx 0 rule ⟨id, o⟩ (skipped ctx o).1 stop reads))) := by
  have hlinked := skipped_linked ho
  have hb := hd.bounds hlinked.stop_le rfl
  obtain ⟨value, hvalue⟩ := y.wrap_info ctx (ruleInfo ctx 0 rule ⟨id, o⟩ (skipped ctx o).1 stop reads)
  have hnested : (y.wrap ctx (ruleInfo ctx 0 rule ⟨id, o⟩ (skipped ctx o).1 stop reads)).Nested :=
    wrap_nested hlinked.le_stop hb.1 (hd.lined hlinked.stop_le rfl)
  have haccounted := @wrap_accounted _ _ (ruleInfo ctx 0 rule ⟨id, o⟩ (skipped ctx o).1 stop reads)
    h.spelled h.accounted
  refine haccounted.behind_skipped ho hb.1 fun s hs => ?_
  obtain ⟨i, hi, rfl⟩ := List.mem_map.1 hs
  have hleaf := (hnested.leaves_within i hi).1
  rw [hvalue] at hleaf
  exact hleaf

theorem Told.node {id : Nat} {rule : Rule} {reads : Footprint} (ho : o ≤ ctx.source.size)
    (hd : Derives ctx (.expr rule.pattern) (skipped ctx o).1 (.ok stop y) tr)
    (h : Told ctx (skipped ctx o).1 stop y) :
    Told ctx o stop (.one (.node ⟨id, o⟩
      (y.wrap ctx (ruleInfo ctx 0 rule ⟨id, o⟩ (skipped ctx o).1 stop reads)).flat)) where
  spelled := by
    intro p hp
    cases Array.mem_singleton.1 hp
    exact Piece.Spelled.flat (p := .node ⟨id, o⟩ (y.wrap ctx _)) (h.node_spelled ho)
  exact := fun _ _ h => (by cases h)
  accounted := by
    have hspans : ∀ tree : Subtree, Yield.spans (.one (.node ⟨id, o⟩ tree.flat)) = leafSpans tree := by
      intro tree
      rw [← leafSpans_flat]
      simp [Yield.spans, Yield.pieces, Piece.spans]
    rw [hspans]
    exact h.node_accounted ho hd

/-- Of two matches in a row each tells about its part. -/
theorem Told.append {g' : Goal} {ps : Array Piece} {tr' : List Event} (ho : o ≤ ctx.source.size)
    (hd : Derives ctx g o (.ok m y) tr) (hds : Derives ctx g' m (.ok stop (.many ps)) tr')
    (h : Told ctx o m y) (h' : Told ctx m stop (.many ps)) :
    Told ctx o stop (.many (y.pieces ++ ps)) where
  spelled := fun p hp => (Array.mem_append.1 hp).elim (h.spelled p) (h'.spelled p)
  exact := fun _ _ h => (by cases h)
  accounted := by
    have hb := hd.bounds ho rfl
    have hspans : Yield.spans (.many (y.pieces ++ ps)) = y.spans ++ Yield.spans (.many ps) := by
      simp [Yield.spans, Yield.pieces]
    rw [hspans]
    exact h.accounted.append h'.accounted hb.1 (hds.bounds hb.2 rfl).1
      (fun s hs => ((hd.lined ho rfl).spans_within s hs).2)
      fun s hs => ((hds.lined hb.2 rfl).spans_within s hs).1

/-- A match tells everything about the text that it has consumed. -/
theorem Derives.told (h : Derives ctx g o out tr) (ho : o ≤ ctx.source.size)
    (hout : out = .ok stop y) : Told ctx o stop y := by
  have hnothing : ∀ {o stop}, Accounted ctx o stop [] → Told ctx o stop .empty := fun haccounted =>
    ⟨by simp [Yield.empty, Yield.pieces], fun _ _ h => (by cases h), haccounted⟩
  refine h.yield_induct (P := Told ctx) (fun _ => hnothing (.refl ctx _)) .literal .byte .leaf
    (fun ho hstart _ hspaces => ?_) .fragment .node .append ho hout
  exact hnothing ((Accounted.spaces hspaces).behind_skipped ho hstart (by simp))

/-! ### Documents -/

/-- What follows a document is accounted for. -/
theorem restOf_accounted (ho : o ≤ ctx.source.size) : Accounted ctx o (restOf ctx o).1 [] := by
  unfold restOf
  split
  · exact .skipped ho
  · exact .spaces (spaces_blanks ctx.source o)

/-- The tree of a document says what stands in the text and accounts for all of it. -/
theorem Accepts.told {start : Bytes} {root : Subtree} {reads : Footprint}
    (h : Accepts ctx start root reads) :
    (∀ i ∈ root.nodes, i.Spelled ctx.source) ∧ Accounted ctx 0 ctx.source.size (leafSpans root) := by
  obtain ⟨stop, y, tr, hd, hrest, rfl, -⟩ := h
  have htold := hd.told (Nat.zero_le _) rfl
  have hlined := hd.lined (Nat.zero_le _) rfl
  have hstop := (hd.bounds (Nat.zero_le _) rfl).2
  have hlinked := restOf_linked hstop
  have hend : (restOf ctx stop).1 = ctx.source.size := Nat.le_antisymm hlinked.stop_le hrest
  -- the root, up to where the start has ended
  have hroot : (∀ i ∈ (Parser.rootOf ctx stop y).nodes, i.Spelled ctx.source)
      ∧ Accounted ctx 0 stop (leafSpans (Parser.rootOf ctx stop y)) := by
    rcases rootOf_eq ctx stop y with ⟨key, tree, rfl, hroot⟩ | hroot
    · rw [hroot]
      refine ⟨htold.spelled (.node key tree) (by simp [Yield.pieces]), ?_⟩
      simpa [Yield.spans, Yield.pieces, Piece.spans] using htold.accounted
    · rw [hroot]
      refine ⟨wrap_spelled htold.spelled (fun value _ => ⟨fun _ _ hkind => ?_, fun _ htype => ?_⟩) rfl,
        @wrap_accounted _ _ (programInfo ctx stop) htold.spelled htold.accounted⟩
      · exact absurd (show false = true ∨ Bytes.ascii "Program" = Bytes.ascii "Operator"
          ∨ Bytes.ascii "Program" = Bytes.ascii "Identifier" from hkind) (by decide)
      · exact absurd (show Bytes.ascii "Program" = Bytes.ascii "String" from htype) (by decide)
  have hin : ∀ s ∈ leafSpans (Parser.rootOf ctx stop y), s.2 ≤ stop := by
    intro s hs
    obtain ⟨i, hi, rfl⟩ := List.mem_map.1 hs
    exact Nat.le_trans ((rootOf_nested hlined).leaves_within i hi).2.2
      (rootOf_spec (hd.laid (Nat.zero_le _) rfl) hstop).2.1
  refine ⟨?_, ?_⟩
  · exact Piece.Spelled.flat (p := .node ⟨0, 0⟩ (Parser.rootOf ctx stop y)) hroot.1
  · rw [leafSpans_flat, ← hend]
    have := hroot.2.append (restOf_accounted hstop) (Nat.zero_le _) hlinked.le_stop hin (by simp)
    rwa [List.append_nil] at this

end Parse

/-! ### Live trees -/

namespace Tree

variable {t : Tree} {sh : Shape} {id x : Nat}

/-- The node has no children, and its stretch holds the offset. -/
def LeafAt (t : Tree) (x id : Nat) : Prop :=
  id ∈ t.preorder ∧ t.children id = []
    ∧ ∃ s, t.node? id = some s ∧ s.info.start ≤ x ∧ x < s.info.stop

/-- In stretches that follow each other an offset is found once. -/
theorem eq_of_apart {ids : List Nat} {start stop : Nat → Nat} {a b : Nat}
    (h : ids.Pairwise fun a b => stop a ≤ start b) (ha : a ∈ ids) (hb : b ∈ ids)
    (hxa : start a ≤ x ∧ x < stop a) (hxb : start b ≤ x ∧ x < stop b) : a = b := by
  induction ids with
  | nil => cases ha
  | cons c ids ih =>
    obtain ⟨hc, h⟩ := List.pairwise_cons.1 h
    rcases List.mem_cons.1 ha with rfl | ha'
    · rcases List.mem_cons.1 hb with rfl | hb'
      · rfl
      · have := hc b hb'
        omega
    · rcases List.mem_cons.1 hb with rfl | hb'
      · have := hc a ha'
        omega
      · exact ih h ha' hb'

/-- An offset in a stretch of a leaf is that of one leaf only. -/
theorem Arranged.existsUnique_leafAt (h : t.Arranged sh) (hnested : (t.subtree sh).Nested)
    {s : Nat × Nat} (hs : s ∈ Parse.leafSpans (t.subtree sh)) (hx : s.1 ≤ x ∧ x < s.2) :
    ∃! id, t.LeafAt x id := by
  have hleaves := h.linked.leaves_eq
  have hapart := hnested.leaves_apart
  rw [hleaves, List.pairwise_map] at hapart
  have hmem : ∀ {id}, id ∈ t.preorder → t.children id = [] →
      id ∈ sh.ids.filter fun id => (t.children id).isEmpty := by
    intro id hid hchildren
    rw [h.preorder_eq] at hid
    exact List.mem_filter.2 ⟨hid, by rw [hchildren]; rfl⟩
  obtain ⟨i, hi, rfl⟩ := List.mem_map.1 hs
  rw [hleaves] at hi
  obtain ⟨id, hid, rfl⟩ := List.mem_map.1 hi
  obtain ⟨hids, hchildren⟩ := List.mem_filter.1 hid
  have hlt := h.lt_size hids
  have hnode : t.node? id = some (t.current t.slots[id]) := by
    rw [node?, Array.getElem?_eq_getElem hlt, Option.map_some]
  rw [infoAt_of_node? hnode] at hx
  refine ⟨id, ⟨by rwa [h.preorder_eq], List.isEmpty_iff.1 hchildren, _, hnode, hx⟩, ?_⟩
  rintro id' ⟨hid', hchildren', s', hnode', hx'⟩
  rw [← infoAt_of_node? hnode] at hx
  rw [← infoAt_of_node? hnode'] at hx'
  exact eq_of_apart hapart (hmem hid' hchildren') hid hx' hx

/-- The leaf at an offset takes one of the stretches. -/
theorem Arranged.mem_leafSpans (h : t.Arranged sh) (hleaf : t.LeafAt x id) :
    ∃ s ∈ Parse.leafSpans (t.subtree sh), s.1 ≤ x ∧ x < s.2 := by
  obtain ⟨hid, hchildren, s, hnode, hx⟩ := hleaf
  rw [h.preorder_eq] at hid
  have hmem : s.info ∈ (t.subtree sh).leaves := by
    rw [h.linked.leaves_eq, ← infoAt_of_node? hnode]
    exact List.mem_map_of_mem (List.mem_filter.2 ⟨hid, by rw [hchildren]; rfl⟩)
  exact ⟨_, List.mem_map_of_mem hmem, hx⟩

/-- The text of a node that lies in the text. -/
theorem text?_eq {s : Slot} (hnode : t.node? id = some s) (hsize : t.source.size < Text.maxSize)
    (hstart : s.info.start ≤ s.info.stop) (hstop : s.info.stop ≤ t.source.size) :
    t.text? id = some (t.source.slice s.info.start s.info.stop) := by
  have hlen : s.info.start + Offset.wrap ((s.info.stop : Int) - (s.info.start : Int)) = s.info.stop := by
    have := Offset.wrap_eq (n := (s.info.stop : Int) - (s.info.start : Int)) (by omega) (by
      simp only [Text.maxSize, Offset.count] at *
      omega)
    omega
  unfold text?
  rw [hnode]
  simp only [Option.bind_eq_bind, Option.bind_some]
  rw [if_pos (Nat.le_trans hstart hstop), hlen]
  rfl

end Tree

namespace Parser

open Parse

/-- **A parse tree loses and duplicates nothing.** In a parsed text that is not too long for its offsets,
every byte that is no white space lies in exactly one leaf of the tree, or else, only if ignored text is
skipped, in a comment of the grammar that meets no leaf.  The text value of a rule, an operator or an
identifier is the text of its node, and that of a string token is the text without its first and last
byte. -/
theorem parse_accounts {p : Parser} {source : Source} {log : Log} {tree : Tree}
    (hsize : source.size < Text.maxSize) (h : (p.parse source log).1 = .ok tree) :
    (∀ x byte, source.text[x]? = some byte → Byte.isSpace byte = false →
        (∃! id, tree.LeafAt x id)
          ∨ p.grammar.skipsIgnored = true ∧ ∃ c ∈ p.grammar.comments, ∃ a b,
              (Scan.comment source.text c a).reach = .upTo b ∧ a ≤ x ∧ x < b
                ∧ ∀ y, a ≤ y → y < b → ¬∃ id, tree.LeafAt y id)
      ∧ ∀ id ∈ tree.preorder, ∀ s, tree.node? id = some s →
          (∀ bytes, s.info.value = .text bytes →
            (s.info.rule.isSome = true ∨ s.info.type = Bytes.ascii "Operator"
              ∨ s.info.type = Bytes.ascii "Identifier") → tree.text? id = some bytes)
          ∧ (s.info.rule = none → s.info.type = Bytes.ascii "String" → ∃ first bytes last,
              s.info.value = .text bytes ∧ tree.text? id = some (first :: bytes ++ [last])) := by
  obtain ⟨root, htree, haccepts⟩ := parse_accepts h
  have hsource : tree.source = source := by rw [htree, Tree.source_ofSubtree]
  obtain ⟨sh, -, harranged, hgrown⟩ := Tree.ofSubtree_spec source tree.documentReads root
  have hroot : tree.subtree sh = root := by
    rw [htree]
    exact hgrown.subtree_eq (Tree.version_ofSubtree source tree.documentReads root).symm
  rw [← htree] at harranged
  have hnested : (tree.subtree sh).Nested := by
    rw [hroot]
    exact Subtree.nested_flat.1 haccepts.nested
  have hstop : (tree.subtree sh).info.stop ≤ source.size := by
    have := haccepts.settled.stop_le
    rw [Subtree.info_flat] at this
    rw [hroot]
    exact this
  obtain ⟨hspelled, haccounted⟩ := haccepts.told
  rw [leafSpans_flat, ← hroot] at haccounted
  refine ⟨fun x byte hbyte hspace => ?_, fun id hid s hnode => ?_⟩
  · have hx : x < source.size := by
      obtain ⟨hlt, -⟩ := Array.getElem?_eq_some_iff.1 hbyte
      exact hlt
    rcases haccounted x (Nat.zero_le _) hx ⟨byte, hbyte, hspace⟩ with ⟨s, hs, hx⟩ | hcomment
    · exact .inl (harranged.existsUnique_leafAt hnested hs hx)
    · obtain ⟨a, b, ⟨hskip, c, hc, hreach⟩, -, h₁, h₂, -, hmiss⟩ := hcomment
      refine .inr ⟨hskip, c, hc, a, b, hreach, h₁, h₂, ?_⟩
      rintro y hy₁ hy₂ ⟨id, hleaf⟩
      obtain ⟨s, hs, hy⟩ := harranged.mem_leafSpans hleaf
      have := hmiss s hs
      omega
  · rw [harranged.preorder_eq] at hid
    have hmem : s.info ∈ (tree.subtree sh).nodes := by
      rw [Tree.nodes_subtree, ← Tree.infoAt_of_node? hnode]
      exact List.mem_map_of_mem hid
    obtain ⟨-, -, hle, hend⟩ := hnested.nodes_within s.info hmem
    have hend : s.info.stop ≤ source.size := Nat.le_trans hend hstop
    have hflat := hspelled s.info.flat (by
      rw [Subtree.nodes_flat, ← hroot]
      exact List.mem_map_of_mem hmem)
    have htext := Tree.text?_eq hnode (by rwa [hsource]) hle (by rwa [hsource])
    rw [hsource] at htext
    refine ⟨fun bytes hvalue hkind => ?_, fun hrule htype => ?_⟩
    · rw [htext, hflat.word bytes hvalue hkind]
      rfl
    · obtain ⟨hlen, hvalue⟩ := hflat.quoted hrule htype
      obtain ⟨first, last, hslice⟩ := Source.slice_eq_cons hlen hend
      exact ⟨first, _, last, hvalue, by rw [htext]; exact congrArg some hslice⟩

/-- The grammar of `twiceParser`, with nothing to be skipped. -/
def tightParser : Parser where
  grammar := { twiceGrammar with skipsIgnored := false }
  maxDepth := 2
  leftRecursive_eq := by decide +kernel

theorem parse_tight_isOk : (tightParser.parse (.ofBytes (Bytes.ascii "+*")) #[]).1.isOk = true := by
  cbv

/-- The sign behind the rule is no node of its own in the grammar; it is found in one leaf of the tree
all the same. -/
theorem parse_tight_accounts :
    (Source.ofBytes (Bytes.ascii "+*")).size < Text.maxSize
      ∧ ∃ tree, (tightParser.parse (.ofBytes (Bytes.ascii "+*")) #[]).1 = .ok tree
        ∧ ∃! id, tree.LeafAt 1 id := by
  have hok := parse_tight_isOk
  have hsize : (Source.ofBytes (Bytes.ascii "+*")).size < Text.maxSize := by decide
  cases hparse : (tightParser.parse (.ofBytes (Bytes.ascii "+*")) #[]).1 with
  | error e =>
    rw [hparse] at hok
    cases hok
  | ok tree =>
    refine ⟨hsize, tree, rfl, ?_⟩
    rcases (parse_accounts hsize hparse).1 1 Byte.star (by decide) (by decide) with hleaf | ⟨hskip, -⟩
    · exact hleaf
    · exact absurd hskip (by decide)

end Parser

end Packrat
