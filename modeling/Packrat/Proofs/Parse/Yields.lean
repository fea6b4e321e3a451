import Packrat.Proofs.Parse.Layout
import Packrat.Proofs.Tree.Leaves

/-!
What a match yields, piece by piece.

A match that succeeds has put together pieces of text, the leaves of tokens and the nodes of rules;
everything else that was tried on the way leaves nothing behind.  So to show something of all matches
it is enough to look at these pieces and at what happens when two matches follow each other
(`Derives.yield_induct`).

The pieces stand one behind the other, and so do the nodes of the trees among them: a node lies inside
its parent, behind the place where the parent begins, and siblings follow each other
(`Derives.lined`).
-/

namespace Packrat

namespace Subtree

variable {t : Subtree}

/-- Depths do not matter. -/
theorem nested_flat : t.flat.Nested ↔ t.Nested := by
  induction t using induct with
  | step info children ih =>
    rw [flat_node]
    constructor
    · rintro (⟨h₁, h₂, h₃, h₄, h₅⟩)
      simp only [List.forall_mem_map, info_flat, List.pairwise_map] at h₃ h₄ h₅
      exact .node h₁ h₂ h₃ h₄ fun c hc => (ih c hc).1 (h₅ c hc)
    · rintro (⟨h₁, h₂, h₃, h₄, h₅⟩)
      refine .node h₁ h₂ ?_ ?_ ?_
      · simpa only [List.forall_mem_map, info_flat, NodeInfo.flat] using h₃
      · simpa only [List.pairwise_map, info_flat, NodeInfo.flat] using h₄
      · simpa only [List.forall_mem_map] using fun c hc => (ih c hc).2 (h₅ c hc)

theorem leaves_flat (t : Subtree) : t.flat.leaves = t.leaves.map NodeInfo.flat := by
  induction t using induct with
  | step info children ih =>
    rw [flat_node]
    by_cases hnil : children = []
    · subst hnil
      simp [leaves_leaf]
    · rw [leaves_node _ (by simpa using hnil), leaves_node _ hnil, List.flatMap_map,
        List.map_flatMap]
      exact List.flatMap_congr ih

end Subtree

namespace Parse

variable {ctx : Context} {g : Goal} {o m stop : Nat} {out : Outcome} {y : Yield} {tr : List Event}

/-! ### Tokens -/

/-- A stretch that holds nothing but white space. -/
def Spaces (src : Source) (a b : Nat) : Prop :=
  ∀ x, a ≤ x → x < b → ∃ c, src.text[x]? = some c ∧ Byte.isSpace c = true

theorem isSpace_of_isBlank {b : UInt8} (h : Byte.isBlank b = true) : Byte.isSpace b = true := by
  simp only [Byte.isBlank, Bool.or_eq_true, beq_iff_eq] at h
  obtain ((rfl | rfl) | rfl) | rfl := h <;> decide

theorem spaces_blanks (src : Source) (a : Nat) :
    Spaces src a (src.text.scanWhile Byte.isBlank a) := by
  intro x hx hlt
  obtain ⟨b, hb, hblank⟩ := Text.inside_of_lt_scanWhile hx hlt
  exact ⟨b, hb, isSpace_of_isBlank hblank⟩

theorem has_eq_true {t : Text} {inside : UInt8 → Bool} {x : Nat} (h : Scan.has t inside x = true) :
    ∃ b, t[x]? = some b ∧ inside b = true := by
  unfold Scan.has at h
  cases hx : t[x]? with
  | none =>
    rw [hx] at h
    cases h
  | some b =>
    rw [hx] at h
    exact ⟨b, rfl, h⟩

/-- A newline token takes a newline and perhaps the return in front of it. -/
theorem spaces_newline {src : Source} {a : Nat} (h : (Scan.newline src.text a).reach = .upTo stop) :
    Spaces src a stop := by
  have hspace : ∀ {x : Nat} {b : UInt8}, Byte.isSpace b = true → Scan.has src.text (· == b) x = true →
      ∃ c, src.text[x]? = some c ∧ Byte.isSpace c = true := by
    intro x b hb hhas
    obtain ⟨c, hc, heq⟩ := has_eq_true hhas
    obtain rfl : c = b := by simpa using heq
    exact ⟨c, hc, hb⟩
  simp only [Scan.newline, Scan.look] at h
  split at h
  · next hnl =>
    cases h
    intro x hx hlt
    obtain rfl : x = a := by omega
    exact hspace (by decide) hnl
  · split at h
    · next hcr =>
      rw [Bool.and_eq_true] at hcr
      cases h
      intro x hx hlt
      rcases Nat.eq_or_lt_of_le hx with rfl | hx
      · exact hspace (by decide) hcr.1
      · obtain rfl : x = a + 1 := by omega
        exact hspace (by decide) hcr.2
    · cases h

/-- What the leaf of a token says about itself. -/
structure TokenLeaf (ctx : Context) (o stop : Nat) (info : NodeInfo) : Prop where
  invoked : info.invoked = o
  start : info.start = (skipped ctx o).1
  ends : info.stop = stop
  rule : info.rule = none
  start_le : (skipped ctx o).1 ≤ stop
  stop_le : stop ≤ ctx.source.size
  value : info.type = Bytes.ascii "Number"
        ∧ info.value = .ofNumber (ctx.source.slice info.start info.stop)
      ∨ info.type = Bytes.ascii "String" ∧ info.start + 2 ≤ info.stop
        ∧ info.value = .text (ctx.source.slice (info.start + 1) (info.stop - 1))
      ∨ info.type = Bytes.ascii "Identifier"
        ∧ info.value = .text (ctx.source.slice info.start info.stop)

theorem Yield.flat_empty : Yield.empty.flat = .empty := by simp [Yield.empty, Yield.flat]

/-- A token that is found is a leaf, or white space that leaves nothing behind. -/
theorem tokenEntryOf_eq_ok (ho : o ≤ ctx.source.size) {kind : TokenKind}
    (h : (tokenEntryOf ctx kind o).outcome = .ok stop y) :
    (∃ info, TokenLeaf ctx o stop info ∧ y = .one (.node ⟨tokenSymbol ctx kind, o⟩ (.node info [])))
      ∨ y = .empty ∧ (skipped ctx o).1 ≤ stop ∧ stop ≤ ctx.source.size
        ∧ Spaces ctx.source (skipped ctx o).1 stop := by
  have hsize := (skipped_linked ho).stop_le
  obtain ⟨y', hy', rfl⟩ := Outcome.flat_eq_ok h
  cases kind with
  | number =>
    obtain ⟨m, hreach, hfound⟩ := nodeResult_eq_ok hy'
    cases hfound
    obtain ⟨h₁, h₂, -⟩ := (Scan.number_inside hsize).upTo hreach
    exact .inl ⟨_, ⟨rfl, rfl, rfl, rfl, h₁, h₂, .inl ⟨rfl, rfl⟩⟩, rfl⟩
  | string =>
    obtain ⟨m, hreach, hfound⟩ := nodeResult_eq_ok hy'
    cases hfound
    obtain ⟨h₁, h₂, -⟩ := (Scan.quoted_inside hsize).upTo hreach
    exact .inl ⟨_, ⟨rfl, rfl, rfl, rfl, h₁, h₂, .inr (.inl ⟨rfl, quoted_upTo hreach, rfl⟩)⟩, rfl⟩
  | ident =>
    obtain ⟨m, hreach, hfound⟩ := nodeResult_eq_ok hy'
    cases hfound
    obtain ⟨h₁, h₂, -⟩ := (Scan.identifier_inside hsize).upTo hreach
    exact .inl ⟨_, ⟨rfl, rfl, rfl, rfl, h₁, h₂, .inr (.inr ⟨rfl, rfl⟩)⟩, rfl⟩
  | newline =>
    obtain ⟨m, hreach, hfound⟩ := scanned_eq_ok hy'
    cases hfound
    obtain ⟨h₁, h₂, -⟩ := (Scan.newline_inside hsize).upTo hreach
    exact .inr ⟨Yield.flat_empty, h₁, h₂, spaces_newline hreach⟩
  | endOfInput =>
    obtain ⟨h₁, h₂, -⟩ := (Scan.blanks_inside hsize).upTo rfl
    simp only [tokenResult] at hy'
    split at hy'
    · cases hy'
      exact .inr ⟨Yield.flat_empty, h₁, h₂, spaces_blanks ctx.source _⟩
    · cases hy'
  | indent => cases hy'
  | dedent => cases hy'

/-! ### An induction over matches -/

/-- To show something of all matches that succeed: it holds of nothing, of a literal and a byte, of
what a token leaves behind, it passes from a pattern to its rule, and it is kept when one match follows
another. -/
theorem Derives.yield_induct {P : Nat → Nat → Yield → Prop}
    (empty : ∀ {o}, o ≤ ctx.source.size → P o o .empty)
    (literal : ∀ {o stop text}, o ≤ ctx.source.size →
      (Scan.literal ctx.source.text text (isWord text) (skipped ctx o).1).reach = .upTo stop →
      P o stop (.one (.text text (skipped ctx o).1)))
    (byte : ∀ {o stop inside}, o ≤ ctx.source.size →
      (Scan.byte ctx.source.text inside o).reach = .upTo stop →
      P o stop (.one (.text (ctx.source.slice o stop) o)))
    (leaf : ∀ {o stop key info}, o ≤ ctx.source.size → TokenLeaf ctx o stop info →
      P o stop (.one (.node key (.node info []))))
    (spaces : ∀ {o stop}, o ≤ ctx.source.size → (skipped ctx o).1 ≤ stop → stop ≤ ctx.source.size →
      Spaces ctx.source (skipped ctx o).1 stop → P o stop .empty)
    (fragment : ∀ {o stop} {rule : Rule} {y tr}, o ≤ ctx.source.size →
      Derives ctx (.expr rule.pattern) (skipped ctx o).1 (.ok stop y) tr →
      P (skipped ctx o).1 stop y → P o stop y.flat)
    (node : ∀ {o stop id} {rule : Rule} {y tr reads}, o ≤ ctx.source.size →
      Derives ctx (.expr rule.pattern) (skipped ctx o).1 (.ok stop y) tr →
      P (skipped ctx o).1 stop y →
      P o stop (.one (.node ⟨id, o⟩
        (y.wrap ctx (ruleInfo ctx 0 rule ⟨id, o⟩ (skipped ctx o).1 stop reads)).flat)))
    (append : ∀ {g g' o m stop y ps tr tr'}, o ≤ ctx.source.size → Derives ctx g o (.ok m y) tr →
      Derives ctx g' m (.ok stop (.many ps)) tr' → P o m y → P m stop (.many ps) →
      P o stop (.many (y.pieces ++ ps)))
    (h : Derives ctx g o out tr) (ho : o ≤ ctx.source.size) (hout : out = .ok stop y) :
    P o stop y := by
  induction h generalizing stop y with
  | literal hl hres =>
    obtain ⟨m, hreach, hfound⟩ := scanned_eq_ok (hres.symm.trans hout)
    cases hfound
    subst hl
    exact literal ho hreach
  | charClass hl hres =>
    obtain ⟨m, hreach, hfound⟩ := scanned_eq_ok (hres.symm.trans hout)
    cases hfound
    subst hl
    exact byte ho hreach
  | anyByte hl hres =>
    obtain ⟨m, hreach, hfound⟩ := scanned_eq_ok (hres.symm.trans hout)
    cases hfound
    subst hl
    exact byte ho hreach
  | ruleAtom _ ih => exact ih ho hout
  | tokenAtom _ ih => exact ih ho hout
  | star _ ih => exact ih ho hout
  | plus _ _ ih => exact ih ho hout
  | plus_fail _ _ => cases hout
  | option _ ih => exact ih ho hout
  | option_fail _ _ => cases hout; exact empty ho
  | ahead _ _ => cases hout; exact empty ho
  | ahead_fail _ _ => cases hout
  | notAhead _ _ => cases hout
  | notAhead_fail _ _ => cases hout; exact empty ho
  | many_fail _ _ => cases hout; exact empty ho
  | many_stay _ _ => cases hout; exact empty ho
  | many_more hd _ hds ih ihs =>
    cases hout
    exact append ho hd hds (ih ho rfl) (ihs (hd.bounds ho rfl).2 rfl)
  | seq _ ih => exact ih ho hout
  | seq_nil => cases hout; exact empty ho
  | seq_fail _ _ => cases hout
  | seq_stop _ _ _ _ => cases hout
  | seq_cons hd hds ih ihs =>
    cases hout
    exact append ho hd hds (ih ho rfl) (ihs (hd.bounds ho rfl).2 rfl)
  | choice _ ih => exact ih ho hout
  | choice_nil => cases hout
  | choice_first _ ih => exact ih ho hout
  | choice_next _ _ _ ihs => exact ihs ho hout
  | name_rule _ _ ih => exact ih ho hout
  | name_token _ _ _ _ ih => exact ih ho hout
  | name_fail _ _ => cases hout
  | @rule id rule o out tr res entry _ hd hentry hres ih =>
    have hlinked := skipped_linked ho
    subst hentry hres
    obtain ⟨y', hy', rfl⟩ := Outcome.flat_eq_ok hout
    obtain ⟨y'', rfl⟩ := ruleResult_eq_ok hy'
    have hpattern := ih hlinked.stop_le rfl
    by_cases hfragment : rule.isFragment = true
    · rw [ruleResult_fragment hfragment] at hy'
      cases hy'
      exact fragment ho hd hpattern
    · rw [ruleResult_node (by simpa using hfragment)] at hy'
      cases hy'
      exact node ho hd hpattern
  | @token kind o res entry hentry hres =>
    change entry = tokenEntryOf ctx kind o at hentry
    subst hentry hres
    rcases tokenEntryOf_eq_ok ho hout with ⟨info, hleaf, rfl⟩ | ⟨rfl, h₁, h₂, hspaces⟩
    · exact leaf ho hleaf
    · exact spaces ho h₁ h₂ hspaces

/-! ### Pieces in a row -/

/-- Where a piece begins. -/
def Piece.first : Piece → Nat
  | .node _ tree => tree.info.invoked
  | .text _ a => a

/-- Where a piece ends. -/
def Piece.last : Piece → Nat
  | .node _ tree => tree.info.stop
  | .text bytes a => a + bytes.length

/-- Pieces that follow each other between two offsets. -/
structure Lined (o stop : Nat) (ps : List Piece) : Prop where
  within : ∀ p ∈ ps, o ≤ p.first ∧ p.first ≤ p.last ∧ p.last ≤ stop
  apart : ps.Pairwise fun p p' => p.last ≤ p'.first
  nested : ∀ key tree, .node key tree ∈ ps → tree.Nested

namespace Lined

variable {o' : Nat} {ps ps' : List Piece}

theorem nil (o stop : Nat) : Lined o stop [] := ⟨by simp, .nil, by simp⟩

theorem text {bytes : Bytes} {a : Nat} (ho : o ≤ a) (hstop : a + bytes.length = stop) :
    Lined o stop [.text bytes a] where
  within := by
    simp only [List.mem_singleton, forall_eq, Piece.first, Piece.last]
    omega
  apart := List.pairwise_singleton _ _
  nested := by simp

theorem node {key : Key} {tree : Subtree} (ho : o ≤ tree.info.invoked) (hstop : tree.info.stop ≤ stop)
    (h : tree.Nested) : Lined o stop [.node key tree] where
  within := by
    simp only [List.mem_singleton, forall_eq, Piece.first, Piece.last]
    exact ⟨ho, Nat.le_trans h.invoked_le h.start_le, hstop⟩
  apart := List.pairwise_singleton _ _
  nested := by
    intro key' tree' hmem
    cases List.mem_singleton.1 hmem
    exact h

theorem mono (h : Lined o stop ps) (ho : o' ≤ o) : Lined o' stop ps where
  within := fun p hp => ⟨Nat.le_trans ho (h.within p hp).1, (h.within p hp).2⟩
  apart := h.apart
  nested := h.nested

theorem append (h : Lined o m ps) (h' : Lined m stop ps') (hom : o ≤ m) (hms : m ≤ stop) :
    Lined o stop (ps ++ ps') where
  within := by
    intro p hp
    rcases List.mem_append.1 hp with hp | hp
    · have := h.within p hp
      omega
    · have := h'.within p hp
      omega
  apart := List.pairwise_append.2 ⟨h.apart, h'.apart, fun p hp p' hp' =>
    Nat.le_trans (h.within p hp).2.2 (h'.within p' hp').1⟩
  nested := by
    intro key tree hmem
    exact (List.mem_append.1 hmem).elim (h.nested key tree) (h'.nested key tree)

theorem flat (h : Lined o stop ps) : Lined o stop (ps.map Piece.flat) := by
  have hends : ∀ p : Piece, p.flat.first = p.first ∧ p.flat.last = p.last := by
    intro p
    cases p with
    | node key tree => simp only [Piece.flat, Piece.first, Piece.last, Subtree.info_flat]; exact ⟨rfl, rfl⟩
    | text bytes a => exact ⟨rfl, rfl⟩
  refine ⟨?_, ?_, ?_⟩
  · simpa only [List.forall_mem_map, hends] using h.within
  · simpa only [List.pairwise_map, hends] using h.apart
  · intro key tree hmem
    obtain ⟨p, hp, heq⟩ := List.mem_map.1 hmem
    cases p with
    | node key' tree' =>
      cases heq
      exact Subtree.nested_flat.2 (h.nested _ _ hp)
    | text bytes a => cases heq

end Lined

/-- The child that a piece becomes lies where the piece does. -/
theorem Piece.child?_eq_some {depth : Nat} {p : Piece} {c : Subtree}
    (h : p.child? ctx depth = some c) :
    c.info.invoked = p.first ∧ c.info.stop = p.last
      ∧ ((∃ key, p = .node key c) ∨ ∃ bytes a, p = .text bytes a ∧ operatorLeaf? ctx depth bytes a = some c) := by
  cases p with
  | node key tree =>
    cases Option.some.inj h
    exact ⟨rfl, rfl, .inl ⟨key, rfl⟩⟩
  | text bytes a =>
    have hleaf := operatorLeaf?_eq_some h
    exact ⟨by rw [hleaf]; rfl, by rw [hleaf]; rfl, .inr ⟨bytes, a, rfl, h⟩⟩

theorem operatorLeaf?_nested {depth : Nat} {bytes : Bytes} {c : Subtree}
    (h : operatorLeaf? ctx depth bytes o = some c) : c.Nested := by
  rw [operatorLeaf?_eq_some h]
  exact .node (Nat.le_refl _) (Nat.le_add_right _ _) (by simp) .nil (by simp)

/-- A node around pieces in a row. -/
theorem wrap_nested {info : NodeInfo} (hstart : info.invoked ≤ info.start)
    (hstop : info.start ≤ info.stop) (h : Lined info.start info.stop y.pieces.toList) :
    (y.wrap ctx info).Nested := by
  cases y with
  | one p =>
    cases p with
    | node key tree =>
      have hin := h.within (.node key tree) (by simp [Yield.pieces])
      refine .node hstart hstop ?_ (List.pairwise_singleton _ _) ?_
      · simpa using ⟨hin.1, hin.2.2⟩
      · simpa using h.nested key tree (by simp [Yield.pieces])
    | text bytes a => exact .node hstart hstop (by simp) .nil (by simp)
  | many ps =>
    refine .node hstart hstop ?_ ?_ ?_
    · intro c hc
      obtain ⟨p, hp, hchild⟩ := List.mem_filterMap.1 hc
      obtain ⟨h₁, h₂, -⟩ := Piece.child?_eq_some hchild
      have hin := h.within p hp
      rw [h₁, h₂]
      exact ⟨hin.1, hin.2.2⟩
    · refine List.Pairwise.filterMap _ (fun p p' hpp c hc c' hc' => ?_) h.apart
      rw [(Piece.child?_eq_some hc).2.1, (Piece.child?_eq_some hc').1]
      exact hpp
    · intro c hc
      obtain ⟨p, hp, hchild⟩ := List.mem_filterMap.1 hc
      obtain ⟨-, -, ⟨key, rfl⟩ | ⟨bytes, a, rfl, hleaf⟩⟩ := Piece.child?_eq_some hchild
      · exact h.nested key c hp
      · exact operatorLeaf?_nested hleaf

/-- What a match yields stands in a row between its start and its end. -/
theorem Derives.lined (h : Derives ctx g o out tr) (ho : o ≤ ctx.source.size)
    (hout : out = .ok stop y) : Lined o stop y.pieces.toList := by
  refine h.yield_induct (P := fun o stop y => Lined o stop y.pieces.toList) (fun _ => .nil _ _)
    ?_ ?_ ?_ (fun _ _ _ _ => .nil _ _) ?_ ?_ ?_ ho hout
  · intro o stop text ho hreach
    exact .text (skipped_linked ho).le_stop (literal_upTo hreach)
  · intro o stop inside ho hreach
    obtain ⟨h₁, h₂, -⟩ := (Scan.byte_inside ho inside).upTo hreach
    refine .text (Nat.le_refl o) ?_
    rw [length_slice h₁ h₂]
    omega
  · intro o stop key info ho hleaf
    have hstart := (skipped_linked ho).le_stop
    refine .node (Nat.le_of_eq hleaf.invoked.symm) (Nat.le_of_eq hleaf.ends) ?_
    refine .node ?_ ?_ (by simp) .nil (by simp)
    · rw [hleaf.invoked, hleaf.start]
      exact hstart
    · rw [hleaf.start, hleaf.ends]
      exact hleaf.start_le
  · intro o stop rule y tr ho _ hpattern
    rw [Yield.pieces_flat, Array.toList_map]
    exact hpattern.flat.mono (skipped_linked ho).le_stop
  · intro o stop id rule y tr reads ho hd hpattern
    have hstart := (hd.bounds (skipped_linked ho).stop_le rfl).1
    obtain ⟨value, hvalue⟩ := y.wrap_info ctx
      (ruleInfo ctx 0 rule ⟨id, o⟩ (skipped ctx o).1 stop reads)
    have hnested : (y.wrap ctx (ruleInfo ctx 0 rule ⟨id, o⟩ (skipped ctx o).1 stop reads)).Nested :=
      wrap_nested (skipped_linked ho).le_stop hstart hpattern
    refine .node ?_ ?_ (Subtree.nested_flat.2 hnested)
    · rw [Subtree.info_flat, hvalue]
      exact Nat.le_refl o
    · rw [Subtree.info_flat, hvalue]
      exact Nat.le_refl stop
  · intro g g' o m stop y ps tr tr' ho hd hds h₁ h₂
    have hb := hd.bounds ho rfl
    show Lined o stop (y.pieces ++ ps).toList
    rw [Array.toList_append]
    exact h₁.append h₂ hb.1 (hds.bounds hb.2 rfl).1

/-- The root of a document holds what the start yields, from the beginning of the text on. -/
theorem rootOf_nested (h : Lined 0 stop y.pieces.toList) : (Parser.rootOf ctx stop y).Nested := by
  rcases rootOf_eq ctx stop y with ⟨key, tree, rfl, hroot⟩ | hroot
  · rw [hroot]
    exact h.nested key tree (by simp [Yield.pieces])
  · rw [hroot]
    exact wrap_nested (Nat.le_refl 0) (Nat.zero_le _) h

theorem Accepts.nested {start : Bytes} {root : Subtree} {reads : Footprint}
    (h : Accepts ctx start root reads) : root.Nested := by
  obtain ⟨stop, y, tr, hd, -, rfl, -⟩ := h
  exact Subtree.nested_flat.2 (rootOf_nested (hd.lined (Nat.zero_le _) rfl))

end Parse

end Packrat
