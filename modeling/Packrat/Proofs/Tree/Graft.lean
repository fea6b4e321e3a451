import Packrat.Proofs.Tree.Plant
import Packrat.Proofs.Tree.View

/-!
What a patch does to a live tree.

`Tree.graft` is followed step by step, slot by slot.  First the place is cleared (`Tree.Cleared`): what
stood below it is given back, and what the levels above it have to learn stands at the end of the log.
Then the new subtree is planted and the levels cover it (`Tree.Planted`).  No number is used twice on
the way (`Tree.Cleared.nodup`, `Tree.Cleared.perm_range`), so the new subtree stands at the place of the
old one, and no slot beside is touched (`Tree.grafted_spec`).
-/

namespace Packrat

namespace Tree

open Shape

variable {t : Tree}

/-! ### Single steps -/

theorem getElem?_foldl_release (ids : List Nat) (t : Tree) (j : Nat) :
    (ids.foldl release t).slots[j]?
      = if j ∈ ids ∧ j < t.slots.size then some { seen := t.version } else t.slots[j]? := by
  induction ids generalizing t with
  | nil => simp
  | cons id ids ih =>
    have hversion : (t.release id).version = t.version := rfl
    have hsize : (t.release id).slots.size = t.slots.size := by simp [release]
    have hslot : (t.release id).slots[j]?
        = if id = j ∧ j < t.slots.size then some { seen := t.version } else t.slots[j]? := by
      unfold release
      rw [Array.getElem?_setIfInBounds]
      by_cases h : id = j
      · subst h
        by_cases h' : id < t.slots.size <;> simp [h']
      · simp [h]
    rw [List.foldl_cons, ih, hversion, hsize, hslot]
    by_cases h : j ∈ ids ∧ j < t.slots.size
    · simp [h]
    · by_cases h' : id = j ∧ j < t.slots.size
      · simp [h'.1, h'.2]
      · rw [if_neg h, if_neg h', if_neg]
        rintro ⟨hmem, hlt⟩
        rcases List.mem_cons.1 hmem with rfl | hmem
        · exact h' ⟨rfl, hlt⟩
        · exact h ⟨hmem, hlt⟩

theorem foldl_release_same (ids : List Nat) (t : Tree) :
    ids.foldl release t
      = { t with slots := (ids.foldl release t).slots, free := ids.reverse ++ t.free } := by
  induction ids generalizing t with
  | nil => rfl
  | cons id ids ih =>
    rw [List.foldl_cons, ih]
    simp [release]

theorem size_foldl_release (ids : List Nat) (t : Tree) :
    (ids.foldl release t).slots.size = t.slots.size := by
  induction ids generalizing t with
  | nil => rfl
  | cons id ids ih =>
    rw [List.foldl_cons, ih]
    simp [release]

theorem getElem?_modifyAll (t : Tree) {ids : List Nat} (hids : ids.Nodup) (f : Slot → Slot) (j : Nat) :
    (t.modifyAll ids f).slots[j]? = if j ∈ ids then (t.slots[j]?).map f else t.slots[j]? := by
  unfold modifyAll
  dsimp only
  generalize t.slots = slots
  induction ids generalizing slots with
  | nil => rfl
  | cons id ids ih =>
    obtain ⟨hnot, hids⟩ := List.nodup_cons.1 hids
    rw [List.foldl_cons, ih hids, Array.getElem?_modify]
    by_cases h : j ∈ ids
    · have hne : id ≠ j := fun heq => hnot (heq ▸ h)
      simp [h, hne]
    · by_cases h' : id = j
      · subst h'
        simp [h]
      · simp [h, h', Ne.symm h']

theorem size_modifyAll (t : Tree) (ids : List Nat) (f : Slot → Slot) :
    (t.modifyAll ids f).slots.size = t.slots.size := by
  unfold modifyAll
  dsimp only
  generalize t.slots = slots
  induction ids generalizing slots with
  | nil => rfl
  | cons id ids ih => rw [List.foldl_cons, ih, Array.size_modify]

/-- What is handed out and what is left are the free slots and those that are added. -/
theorem supply_perm (free : List Nat) (size n : Nat) :
    (supply free size n ++ free.drop n).Perm (free ++ List.range' size (n - free.length)) := by
  unfold supply
  rw [List.append_assoc]
  refine (List.Perm.append_left _ List.perm_append_comm).trans ?_
  rw [← List.append_assoc, List.take_append_drop]

/-! ### The patch -/

/-- A patch before the log is looked after. -/
def grafted (t : Tree) (target : Nat) (replacement : Subtree) (e : Edit) : Tree :=
  let parent := t.parent? target
  let above := t.ancestors target
  let t := above.foldl catchUp t
  let t := (t.releaseBelow target).displace e
  let t := t.modifyAll above (t.stretch (.ofEdit e))
  let t := t.plant parent target replacement
  let extent := ((t.slots[target]?).map (·.extent)).getD {}
  t.modifyAll above fun s => { s with extent := s.extent.cover extent }

theorem graft_eq (t : Tree) (target : Nat) (replacement : Subtree) (e : Edit) :
    t.graft target replacement e
      = if pendingLimit ≤ (t.grafted target replacement e).pending.size
        then (t.grafted target replacement e).compact else t.grafted target replacement e := rfl

theorem source_grafted (t : Tree) (target : Nat) (replacement : Subtree) (e : Edit) :
    (t.grafted target replacement e).source = t.source.edit e := by
  have hview := foldl_catchUp_sameView (t.ancestors target) t
  unfold grafted
  show (plant _ _ _ _).source = _
  rw [source_plant]
  show ((List.foldl catchUp t _).releaseBelow target).source.edit e = _
  rw [releaseBelow, foldl_release_same]
  exact congrArg (Source.edit · e) hview.source

/-- A patch applies its edit to the text of the tree. -/
theorem source_graft (t : Tree) (target : Nat) (replacement : Subtree) (e : Edit) :
    (t.graft target replacement e).source = t.source.edit e := by
  rw [graft_eq, apply_ite Tree.source]
  exact (ite_self _).trans (source_grafted t target replacement e)

/-- What a patch leaves behind. -/
structure Grafted (t : Tree) (ls : List Level) (sub : Shape) (replacement : Subtree) (e : Edit)
    (g : Tree) (sub' : Shape) : Prop where
  source : g.source = t.source.edit e
  root : g.root = t.root
  documentReads : g.documentReads = t.documentReads.shift e.offset e.stop e.delta
  pending : g.pending = t.pending.push (.ofEdit e)
  base : g.base = t.base
  id : sub'.id = sub.id
  arranged : g.Arranged (plug ls sub')
  /-- The levels are stretched and cover what the new subtree has examined. -/
  level : ∀ l ∈ ls, ∃ s, t.node? l.id = some s ∧ g.slots[l.id]? = some
    { g.stretch (.ofEdit e) s with
      extent := (g.stretch (.ofEdit e) s).extent.cover replacement.extent }
  /-- Nothing else is touched. -/
  beside : ∀ j ∈ outer ls, (∀ l ∈ ls, l.id ≠ j) → g.slots[j]? = t.slots[j]?
  grown : g.Grown g.version (parentOf none ls) sub' replacement

/-- The tree right before the new subtree is planted. -/
def cleared (t : Tree) (target : Nat) (e : Edit) : Tree :=
  let above := t.ancestors target
  let t := above.foldl catchUp t
  let t := (t.releaseBelow target).displace e
  t.modifyAll above (t.stretch (.ofEdit e))

/-- What that tree is like: the edit is done, the levels are stretched, and the numbers `below` the place
are free. -/
structure Cleared (t : Tree) (ls : List Level) (sub : Shape) (e : Edit) (below : List Nat) (c : Tree) :
    Prop where
  perm : (sub.id :: below).Perm sub.ids
  same : c = { t with
    slots := c.slots
    free := below ++ t.free
    source := t.source.edit e
    pending := t.pending.push (.ofEdit e)
    documentReads := t.documentReads.shift e.offset e.stop e.delta }
  size : c.slots.size = t.slots.size
  level : ∀ l ∈ ls, ∃ s, t.node? l.id = some s ∧ c.slots[l.id]? = some (c.stretch (.ofEdit e) s)
  beside : ∀ j, (∀ l ∈ ls, l.id ≠ j) → j ∉ below → c.slots[j]? = t.slots[j]?
  released : ∀ j ∈ below, c.slots[j]? = some { seen := t.version }

/-- What planting does to it, and the levels that cover the new subtree. -/
structure Planted (c : Tree) (ls : List Level) (sub' : Shape) (replacement : Subtree) (g : Tree) :
    Prop where
  same : g = { c with slots := g.slots, free := c.free.drop (replacement.size - 1) }
  size : g.slots.size = c.slots.size + (replacement.size - 1 - c.free.length)
  level : ∀ l ∈ ls, g.slots[l.id]?
    = (c.slots[l.id]?).map fun s => { s with extent := s.extent.cover replacement.extent }
  beside : ∀ j, (∀ l ∈ ls, l.id ≠ j) → j ∉ sub'.ids → g.slots[j]? = c.slots[j]?
  grown : g.Grown g.version (parentOf none ls) sub' replacement

section Patch

variable {ls : List Level} {sub : Shape} (h : t.Arranged (plug ls sub)) (e : Edit)

include h

theorem Arranged.level_nodup : (ls.map Level.id).Nodup := by
  have hnodup := (List.nodup_append.1 h.nodup).1
  rw [(ids_plug ls sub).nodup_iff, List.nodup_append] at hnodup
  have houter := hnodup.2.1
  clear hnodup h
  induction ls with
  | nil => exact List.nodup_nil
  | cons l ls ih =>
    rw [outer, List.nodup_append, List.nodup_cons] at houter
    rw [List.map_cons, List.nodup_cons]
    refine ⟨fun hmem => ?_, ih houter.2.1⟩
    obtain ⟨l', hl', heq⟩ := List.mem_map.1 hmem
    exact houter.2.2 l.id (by simp) l'.id (id_mem_outer hl') heq.symm

/-- What stands below the place is not outside of it. -/
theorem Arranged.not_mem_outer {id : Nat} (hid : id ∈ sub.ids) : id ∉ outer ls := by
  have hnodup := (List.nodup_append.1 h.nodup).1
  rw [(ids_plug ls sub).nodup_iff, List.nodup_append] at hnodup
  exact fun houter => hnodup.2.2 id hid id houter rfl

/-- The numbers below the place, itself left out. -/
theorem Arranged.descendants_perm :
    (sub.id :: ((ls.map Level.id).foldl catchUp t).descendants t.slots.size sub.id).Perm sub.ids := by
  have hview := foldl_catchUp_sameView (ls.map Level.id) t
  have harr := hview.arranged h
  exact (linked_plug.1 harr.linked).1.descendants_perm h.height_le_of_plug

theorem cleared_spec : ∃ below, Cleared t ls sub e below (t.cleared sub.id e) := by
  have hperm := h.descendants_perm
  have hnodup := h.level_nodup
  have hview := foldl_catchUp_sameView (ls.map Level.id) t
  have hcaught := getElem?_foldl_catchUp (ls.map Level.id) t
  unfold cleared
  rw [h.ancestors_eq]
  dsimp only
  generalize (ls.map Level.id).foldl catchUp t = t₁ at hperm hview hcaught ⊢
  unfold releaseBelow
  rw [hview.size]
  generalize t₁.descendants t.slots.size sub.id = below at hperm ⊢
  have hslots := getElem?_foldl_release below t₁
  have hsame := foldl_release_same below t₁
  have hsize := size_foldl_release below t₁
  generalize below.foldl release t₁ = t₂ at hslots hsame hsize ⊢
  have hsource : t₂.source = t.source := by rw [hsame]; exact hview.source
  have hfree : t₂.free = below.reverse ++ t.free := by rw [hsame, hview.free]
  have hroot : t₂.root = t.root := by rw [hsame]; exact hview.root
  have hreads : t₂.documentReads = t.documentReads := by rw [hsame]; exact hview.documentReads
  have hpending : t₂.pending = t.pending := by rw [hsame]; exact hview.pending
  have hbase : t₂.base = t.base := by rw [hsame]; exact hview.base
  have hlevel : ∀ l ∈ ls, l.id ∉ below := fun l hl hmem =>
    h.not_mem_outer (hperm.subset (List.mem_cons_of_mem _ hmem)) (id_mem_outer hl)
  have hin : ∀ j, (∀ l ∈ ls, l.id ≠ j) ↔ j ∉ ls.map Level.id := by simp
  refine ⟨below.reverse, (List.Perm.cons _ below.reverse_perm).trans hperm, ?_, ?_, ?_, ?_, ?_⟩
  · simp only [modifyAll, displace, hsource, hfree, hroot, hreads, hpending, hbase]
    rfl
  · rw [size_modifyAll]
    show t₂.slots.size = _
    rw [hsize, hview.size]
  · intro l hl
    have hmem : l.id ∈ ls.map Level.id := List.mem_map_of_mem hl
    have hlt : l.id < t.slots.size := h.lt_size (mem_ids_plug.2 (.inr (id_mem_outer hl)))
    have hnode : t.node? l.id = some (t.current t.slots[l.id]) := by
      rw [node?, Array.getElem?_eq_getElem hlt, Option.map_some]
    refine ⟨_, hnode, ?_⟩
    rw [getElem?_modifyAll _ hnodup, if_pos hmem]
    show (t₂.slots[l.id]?).map _ = _
    rw [hslots, if_neg (fun hb => hlevel l hl hb.1), hcaught, if_pos hmem, hnode]
    rfl
  · intro j hj hbelow
    rw [getElem?_modifyAll _ hnodup, if_neg ((hin j).1 hj)]
    show t₂.slots[j]? = _
    rw [hslots, if_neg (by simpa using fun h => absurd h (by simpa using hbelow)), hcaught,
      if_neg ((hin j).1 hj)]
  · intro j hj
    have hj' : j ∈ below := List.mem_reverse.1 hj
    have hlt : j < t.slots.size :=
      h.lt_size (mem_ids_plug.2 (.inl (hperm.subset (List.mem_cons_of_mem _ hj'))))
    have hnot : j ∉ ls.map Level.id := by
      intro hmem
      obtain ⟨l, hl, rfl⟩ := List.mem_map.1 hmem
      exact hlevel l hl hj'
    rw [getElem?_modifyAll _ hnodup, if_neg hnot]
    show t₂.slots[j]? = _
    rw [hslots, if_pos ⟨hj', by rw [hview.size]; exact hlt⟩, hview.version]

/-! ### The numbers -/

namespace Cleared

variable {e} {below : List Nat} {c : Tree} (hc : Cleared t ls sub e below c)

include hc

omit h in
theorem free_eq : c.free = below ++ t.free := by rw [hc.same]

omit h in
theorem version_eq : c.version = t.version + 1 := by
  rw [hc.same]
  simp only [version, Array.size_push, Nat.add_assoc]

/-- The place, the numbers below and around it and the free ones are all different. -/
theorem nodup : ((sub.id :: below) ++ outer ls ++ t.free).Nodup := by
  have := h.nodup
  rwa [List.Perm.nodup_iff (List.Perm.append_right _ ((ids_plug ls sub).trans
    (List.Perm.append_right _ hc.perm.symm)))] at this

theorem supplies : c.Supplies := by
  refine ⟨?_, fun j hj => ?_⟩
  · rw [hc.free_eq]
    refine (hc.nodup h).sublist (List.Sublist.append ?_ (List.Sublist.refl _))
    exact (List.sublist_cons_self _ _).trans (List.sublist_append_left _ _)
  · rw [hc.free_eq] at hj
    rw [hc.size]
    rcases List.mem_append.1 hj with hb | hf
    · exact h.lt_size (mem_ids_plug.2 (.inl (hc.perm.subset (List.mem_cons_of_mem _ hb))))
    · simpa using h.perm.subset (List.mem_append_right _ hf)

theorem id_not_free : sub.id ∉ c.free := by
  have hnodup := hc.nodup h
  rw [hc.free_eq]
  simp only [List.cons_append, List.nodup_cons, List.mem_append, not_or] at hnodup ⊢
  exact ⟨hnodup.1.1.1, hnodup.1.2⟩

/-- What stands around the place is in use. -/
theorem outer_not_free {j : Nat} (hj : j ∈ outer ls) : j ∉ c.free := by
  have hnodup := hc.nodup h
  rw [List.append_assoc, List.cons_append, List.nodup_cons, List.nodup_append,
    List.nodup_append] at hnodup
  rw [hc.free_eq]
  intro hmem
  rcases List.mem_append.1 hmem with hb | hf
  · exact hnodup.2.2.2 j hb j (List.mem_append_left _ hj) rfl
  · exact hnodup.2.2.1.2.2 j hj j hf rfl

/-- The new subtree gets no number that stands around the place. -/
theorem outer_not_planted {sub' : Shape} {n : Nat}
    (hids : sub'.ids = sub.id :: supply c.free c.slots.size n) {j : Nat} (hj : j ∈ outer ls) :
    j ∉ sub'.ids := by
  intro hmem
  rw [hids] at hmem
  rcases List.mem_cons.1 hmem with rfl | hmem
  · exact h.not_mem_outer sub.id_mem_ids hj
  · refine not_mem_supply ?_ (hc.outer_not_free h hj) hmem
    rw [hc.size]
    exact h.lt_size (mem_ids_plug.2 (.inr hj))

/-- With the new subtree in the place every number is still used once. -/
theorem perm_range {sub' : Shape} {n : Nat} (hids : sub'.ids = sub.id :: supply c.free c.slots.size n) :
    ((plug ls sub').ids ++ c.free.drop n).Perm
      (List.range (c.slots.size + (n - c.free.length))) := by
  rw [hc.free_eq, hc.size] at hids ⊢
  rw [List.range_eq_range', ← List.range'_append_1, ← List.range_eq_range', Nat.zero_add]
  -- both sides hold every number equally often
  refine List.perm_iff_count.2 fun a => ?_
  have h₁ := (ids_plug ls sub').count_eq a
  have h₂ := (supply_perm (below ++ t.free) t.slots.size n).count_eq a
  have h₃ := h.perm.count_eq a
  have h₄ := (ids_plug ls sub).count_eq a
  have h₅ := hc.perm.count_eq a
  rw [hids] at h₁
  simp only [List.count_append, List.count_cons] at h₁ h₂ h₃ h₄ h₅ ⊢
  omega

end Cleared

/-! ### The slots -/

/-- The new subtree takes the number of the place and the numbers that are handed out next. -/
theorem planted_spec (replacement : Subtree) {below : List Nat}
    (hc : Cleared t ls sub e below (t.cleared sub.id e)) :
    ∃ sub' : Shape, sub'.id = sub.id
      ∧ sub'.ids = sub.id :: supply (t.cleared sub.id e).free (t.cleared sub.id e).slots.size
          (replacement.size - 1)
      ∧ Planted (t.cleared sub.id e) ls sub' replacement (t.grafted sub.id replacement e) := by
  have hparent := (linked_plug.1 h.linked).1.parent?_eq
  have hid := h.lt_size (mem_ids_plug.2 (.inl sub.id_mem_ids))
  obtain ⟨sub', hid', hids, hhand, hgrown, hothers⟩ :=
    plant_spec replacement (t.cleared sub.id e) (parentOf none ls) sub.id (hc.supplies h)
      (by rw [hc.size]; exact hid) (hc.id_not_free h)
  have heq : t.grafted sub.id replacement e
      = ((t.cleared sub.id e).plant (parentOf none ls) sub.id replacement).modifyAll (ls.map Level.id)
        fun s => { s with extent := s.extent.cover replacement.extent } := by
    rw [← hgrown.extent_eq, hid']
    unfold grafted cleared
    rw [hparent, h.ancestors_eq]
  have hlevel : ∀ l ∈ ls, l.id ∉ sub'.ids := fun l hl =>
    hc.outer_not_planted h hids (id_mem_outer hl)
  have hin : ∀ j, (∀ l ∈ ls, l.id ≠ j) ↔ j ∉ ls.map Level.id := by simp
  rw [heq]
  generalize (t.cleared sub.id e).plant (parentOf none ls) sub.id replacement = planted
    at hhand hgrown hothers ⊢
  have hslot := getElem?_modifyAll planted h.level_nodup
    (fun s => { s with extent := s.extent.cover replacement.extent })
  refine ⟨sub', hid', hids, ?_, ?_, fun l hl => ?_, fun j hj hnew => ?_, ?_⟩
  · rw [← hhand.free]
    exact congrArg (fun t' : Tree => ({ t' with slots := _ } : Tree)) hhand.same
  · rw [size_modifyAll, hhand.size]
  · rw [hslot, if_pos (List.mem_map_of_mem hl), hothers _ (hlevel l hl)]
  · rw [hslot, if_neg ((hin j).1 hj), hothers j hnew]
  · have hversion : (planted.modifyAll (ls.map Level.id)
        fun s => { s with extent := s.extent.cover replacement.extent }).version
          = (t.cleared sub.id e).version := hhand.version_eq
    rw [hversion]
    refine hgrown.congr fun j hj => ?_
    rw [hslot, if_neg]
    intro hmem
    obtain ⟨l, hl, rfl⟩ := List.mem_map.1 hmem
    exact hlevel l hl hj

namespace Cleared

variable {e} {below : List Nat} {c g : Tree} {sub' : Shape} {replacement : Subtree}
  (hc : Cleared t ls sub e below c) (hg : Planted c ls sub' replacement g)
  (hids : sub'.ids = sub.id :: supply c.free c.slots.size (replacement.size - 1))

include hc hg

omit h in
theorem planted_level : ∀ l ∈ ls, ∃ s, t.node? l.id = some s ∧ g.slots[l.id]? = some
    { g.stretch (.ofEdit e) s with
      extent := (g.stretch (.ofEdit e) s).extent.cover replacement.extent } := by
  intro l hl
  obtain ⟨s, hs, hslot⟩ := hc.level l hl
  have hstretch : g.stretch (.ofEdit e) s = c.stretch (.ofEdit e) s := by
    rw [hg.same]
    rfl
  refine ⟨s, hs, ?_⟩
  rw [hg.level l hl, hslot, hstretch]
  rfl

/-- No slot is ahead of the log of the new tree or behind what it still knows. -/
theorem planted_seen : ∀ s ∈ g.slots, g.base ≤ s.seen ∧ s.seen ≤ g.version := by
  have hbase : g.base = t.base := by rw [hg.same, hc.same]
  have hversion : g.version = t.version + 1 := by
    rw [← hc.version_eq, hg.same]
    rfl
  have hle : t.base ≤ t.version := Nat.le_add_right _ _
  intro s hs
  obtain ⟨j, hj⟩ := Array.mem_iff_getElem?.1 hs
  by_cases hnew : j ∈ sub'.ids
  · rw [hg.grown.seen_eq hnew hj]
    omega
  by_cases hlev : ∃ l ∈ ls, l.id = j
  · obtain ⟨l, hl, rfl⟩ := hlev
    obtain ⟨s', -, hslot⟩ := hc.planted_level hg l hl
    cases hslot.symm.trans hj
    show g.base ≤ g.version ∧ g.version ≤ _
    omega
  push Not at hlev
  rw [hg.beside j hlev hnew] at hj
  by_cases hb : j ∈ below
  · cases (hc.released j hb).symm.trans hj
    show g.base ≤ t.version ∧ t.version ≤ _
    omega
  · rw [hc.beside j hlev hb] at hj
    have := h.seen s (Array.mem_iff_getElem?.2 ⟨j, hj⟩)
    omega

include hids

theorem planted_beside {j : Nat} (hj : j ∈ outer ls) (hne : ∀ l ∈ ls, l.id ≠ j) :
    g.slots[j]? = t.slots[j]? := by
  rw [hg.beside j hne (hc.outer_not_planted h hids hj)]
  refine hc.beside j hne fun hb => hc.outer_not_free h hj ?_
  rw [hc.free_eq]
  exact List.mem_append_left _ hb

/-- The new tree is in order. -/
theorem planted_arranged (hid : sub'.id = sub.id) : g.Arranged (plug ls sub') where
  root := by rw [id_plug, hid, ← id_plug, h.root, hg.same, hc.same]
  linked := by
    rw [linked_plug, hid]
    refine ⟨hg.grown.linked, (linked_plug.1 h.linked).2.congr fun j hj s hs => ?_⟩
    by_cases hlev : ∃ l ∈ ls, l.id = j
    · obtain ⟨l, hl, rfl⟩ := hlev
      obtain ⟨s', hs', hslot⟩ := hc.planted_level hg l hl
      obtain rfl : t.current s = s' := by
        rw [node?, hs] at hs'
        exact Option.some.inj hs'
      exact ⟨_, hslot, current_links t s⟩
    · push Not at hlev
      exact ⟨s, (hc.planted_beside h hg hids hj hlev).trans hs, rfl, rfl⟩
  perm := by
    have hfree : g.free = c.free.drop (replacement.size - 1) := by rw [hg.same]
    rw [hfree, hg.size]
    exact hc.perm_range h hids
  seen := hc.planted_seen h hg

end Cleared

/-- A patch puts the new subtree in the place of the old one, stretches the levels above it and
leaves all other slots alone. -/
theorem grafted_spec (replacement : Subtree) :
    ∃ sub', Grafted t ls sub replacement e (t.grafted sub.id replacement e) sub' := by
  obtain ⟨below, hc⟩ := cleared_spec h e
  obtain ⟨sub', hid, hids, hg⟩ := planted_spec h e replacement hc
  generalize t.cleared sub.id e = c at hc hids hg
  refine ⟨sub', ?_, ?_, ?_, ?_, ?_, hid, hc.planted_arranged h hg hids hid, hc.planted_level hg,
    fun j hj hne => hc.planted_beside h hg hids hj hne, hg.grown⟩
  all_goals rw [hg.same, hc.same]

end Patch

end Tree

end Packrat
