import Packrat.Proofs.Tree.Displaced
import Packrat.Proofs.Tree.Histories

/-!
Moving nodes late and moving them at once.

A patch moves the ancestors of the replaced node and leaves a note in the log for all other nodes, which
follow it when they are next looked at or when the log is emptied.  `Tree.graftAtOnce` has no log: it
moves every node on the spot.

Design.  A tree that is patched at once mirrors a tree that is patched lazily (`Tree.Mirrors`): its slots
hold what is seen of the nodes of the other one, their position in lines and columns aside.  The relation
is kept by every step of a patch: slots are emptied, offsets move, ancestors are stretched, the
replacement is planted.  In the middle of a patch some slots are out of step, so the relation names them;
a slot is back in step once it has been written with the present date.  No arrangement of the tree is
needed for this, and nothing about the edits.

Main statement (`Tree.node?_performAll_eq_atOnce`): whatever is looked at in between, and whenever the log
is emptied, what is seen of a node is what stands in its slot in the tree that is patched at once.
-/

namespace Packrat

namespace Slot

/-- Moving does not look at line, column and date. -/
theorem core_shift (s : Slot) (d : Shift) : (s.shift d).core = s.core.shift d := rfl

end Slot

namespace Tree

variable {t t' u u' : Tree} {off ids : List Nat} {f f' : Slot → Slot}

/-! ### Patches that move every node -/

/-- Applies an edit, puts `replacement` in the place of a subtree and moves every node at once: the
ancestors of the subtree grow with the edit, all others are displaced. -/
def graftAtOnce (t : Tree) (target : Nat) (replacement : Subtree) (e : Edit) : Tree :=
  let parent := t.parent? target
  let above := t.ancestors target
  let t := t.releaseBelow target
  let t := { t with
    source := t.source.edit e
    documentReads := t.documentReads.shift e.offset e.stop e.delta
    slots := t.slots.mapIdx fun j s => if j ∈ above then s else s.shift (.ofEdit e) }
  let t := t.modifyAll above (t.stretch (.ofEdit e))
  let t := t.plant parent target replacement
  let extent := ((t.slots[target]?).map (·.extent)).getD {}
  t.modifyAll above fun s => { s with extent := s.extent.cover extent }

/-- The tree after an operation, if every node moves at once: there is nothing to catch up with. -/
def performAtOnce (t : Tree) : Op → Tree
  | .graft target replacement e => t.graftAtOnce target replacement e
  | .look _ | .compact => t

/-- The tree after a history of operations, if every node moves at once. -/
def performAllAtOnce (t : Tree) (ops : List Op) : Tree := ops.foldl performAtOnce t

/-- The patches of a history. -/
def patchesOf (ops : List Op) : List Op := ops.filter fun op => op.target?.isSome

theorem performAllAtOnce_patchesOf (t : Tree) (ops : List Op) :
    t.performAllAtOnce (patchesOf ops) = t.performAllAtOnce ops := by
  unfold performAllAtOnce patchesOf
  induction ops generalizing t with
  | nil => rfl
  | cons op ops ih =>
    cases op with
    | graft target replacement e => exact ih _
    | look j => exact ih t
    | compact => exact ih t

/-! ### Mirrors -/

/-- The slot of a node, if it exists, has seen all displacements. -/
def UpToDate (t : Tree) (j : Nat) : Prop := ∀ s, t.slots[j]? = some s → s.seen = t.version

/-- The slots of a node say the same but for line, column and date. -/
def SameCore (t u : Tree) (j : Nat) : Prop :=
  ∀ s, t.slots[j]? = some s → ∃ s', u.slots[j]? = some s' ∧ s'.core = s.core

/-- The slots of `u` hold what is seen of the nodes of `t`, except for the nodes in `off`. -/
structure Mirrors (off : List Nat) (t u : Tree) : Prop where
  size : u.slots.size = t.slots.size
  free : u.free = t.free
  slot : ∀ j, j ∉ off → ∀ s, t.slots[j]? = some s → t.base ≤ s.seen ∧ s.seen ≤ t.version
    ∧ ∃ s', u.slots[j]? = some s' ∧ s'.core = (t.current s).core

/-- No node is ahead of the log or behind what the log still knows. -/
def Dated (t : Tree) : Prop := ∀ slot ∈ t.slots, t.base ≤ slot.seen ∧ slot.seen ≤ t.version

/-- The nodes of a fresh tree are dated. -/
theorem dated_ofSubtree (source : Source) (reads : Footprint) (s : Subtree) :
    (ofSubtree source reads s).Dated := by
  obtain ⟨_, -, h, -⟩ := ofSubtree_spec source reads s
  exact h.seen

/-- A tree in which all nodes follow the log mirrors the tree before. -/
theorem Dated.mirrors_compact (h : t.Dated) : Mirrors [] t t.compact := by
  refine ⟨by rw [compact, Array.size_map], rfl, fun j _ s hs => ?_⟩
  obtain ⟨hbase, hversion⟩ := h s (Array.mem_of_getElem? hs)
  refine ⟨hbase, hversion, t.current s, ?_, rfl⟩
  rw [compact, Array.getElem?_map, hs, Option.map_some]

theorem getElem?_eq_none_of_size (h : u.slots.size = t.slots.size) {j : Nat}
    (hj : t.slots[j]? = none) : u.slots[j]? = none := by
  rw [Array.getElem?_eq_none_iff] at hj ⊢
  omega

/-- Whatever is read off the core of a slot is the same for nodes whose slots say the same. -/
theorem SameCore.map_eq {α : Type} {j : Nat} (h : SameCore t u j)
    (hsize : u.slots.size = t.slots.size) {r : Slot → α} (hr : ∀ s, r s.core = r s) :
    (u.slots[j]?).map r = (t.slots[j]?).map r := by
  cases hs : t.slots[j]? with
  | none => rw [getElem?_eq_none_of_size hsize hs]
  | some s =>
    obtain ⟨s', hs', hcore⟩ := h s hs
    rw [hs', Option.map_some, Option.map_some, ← hr s', hcore, hr]

namespace Mirrors

/-- Fewer nodes are in step. -/
theorem mono (h : Mirrors [] t u) (off : List Nat) : Mirrors off t u :=
  ⟨h.size, h.free, fun j _ => h.slot j List.not_mem_nil⟩

/-- A node that is up to date is mirrored as it stands. -/
theorem sameCore (h : Mirrors off t u) {j : Nat} (hj : j ∉ off) (hdate : t.UpToDate j) :
    SameCore t u j := by
  intro s hs
  obtain ⟨-, -, s', hs', hcore⟩ := h.slot j hj s hs
  rw [current_of_seen (hdate s hs)] at hcore
  exact ⟨s', hs', hcore⟩

/-- Nodes that are up to date and say the same are in step again. -/
theorem of_sameCore (h : Mirrors off t u) (hsame : ∀ j ∈ off, SameCore t u j)
    (hdate : ∀ j ∈ off, t.UpToDate j) : Mirrors [] t u := by
  refine ⟨h.size, h.free, fun j _ s hs => ?_⟩
  by_cases hj : j ∈ off
  · obtain ⟨s', hs', hcore⟩ := hsame j hj s hs
    have hseen := hdate j hj s hs
    exact ⟨hseen ▸ Nat.le_add_right _ _, Nat.le_of_eq hseen, s', hs',
      by rw [current_of_seen hseen, hcore]⟩
  · exact h.slot j hj s hs

theorem sameView (h : Mirrors [] t u) (hview : SameView t t') : Mirrors [] t' u := by
  refine ⟨h.size.trans hview.size.symm, h.free.trans hview.free.symm, fun j hj s hs => ?_⟩
  rw [hview.base, hview.version, hview.current_eq]
  rcases hview.slot j with heq | heq
  · exact h.slot j hj s (heq.symm.trans hs)
  · obtain ⟨s₀, hs₀, rfl⟩ := Option.map_eq_some_iff.1 (heq.symm.trans hs)
    obtain ⟨-, -, s', hs', hcore⟩ := h.slot j hj s₀ hs₀
    rw [current_seen, current_current]
    exact ⟨Nat.le_add_right _ _, Nat.le_refl _, s', hs', hcore⟩

/-- Emptying the log is not seen. -/
theorem compact (h : Mirrors [] t u) : Mirrors [] t.compact u := by
  refine ⟨?_, h.free, fun j hj s hs => ?_⟩
  · rw [h.size, Tree.compact, Array.size_map]
  · change (t.slots.map t.current)[j]? = some s at hs
    rw [Array.getElem?_map] at hs
    obtain ⟨s₀, hs₀, rfl⟩ := Option.map_eq_some_iff.1 hs
    obtain ⟨-, -, s', hs', hcore⟩ := h.slot j hj s₀ hs₀
    have hseen : (t.current s₀).seen = t.compact.version := current_seen t s₀
    rw [current_of_seen hseen, hseen]
    exact ⟨Nat.le_add_right _ _, Nat.le_refl _, s', hs', hcore⟩

theorem settle (h : Mirrors [] t u) (limit : Nat) : Mirrors [] (t.settle limit) u := by
  unfold Tree.settle
  split
  · exact h.compact
  · exact h

end Mirrors

/-! ### Links -/

theorem descendants_congr (h : u.children = t.children) (fuel id : Nat) :
    u.descendants fuel id = t.descendants fuel id := by
  induction fuel generalizing id with
  | zero => rfl
  | succ fuel ih =>
    rw [descendants, descendants, h]
    exact List.flatMap_congr fun c _ => by rw [ih]

namespace Mirrors

variable (h : Mirrors [] t u)

include h

theorem parent_eq (j : Nat) : u.parent? j = t.parent? j := by
  unfold parent?
  cases hs : t.slots[j]? with
  | none => rw [getElem?_eq_none_of_size h.size hs]
  | some s =>
    obtain ⟨-, -, s', hs', hcore⟩ := h.slot j List.not_mem_nil s hs
    rw [hs', Option.bind_some, Option.bind_some]
    exact (congrArg Slot.parent hcore).trans (current_links t s).1

theorem children_eq (j : Nat) : u.children j = t.children j := by
  unfold Tree.children
  cases hs : t.slots[j]? with
  | none => rw [getElem?_eq_none_of_size h.size hs]
  | some s =>
    obtain ⟨-, -, s', hs', hcore⟩ := h.slot j List.not_mem_nil s hs
    rw [hs', Option.map_some, Option.map_some, Option.getD_some, Option.getD_some]
    exact (congrArg Slot.children hcore).trans (current_links t s).2

theorem ancestors_eq (j : Nat) : u.ancestors j = t.ancestors j := by
  unfold ancestors
  rw [h.size, h.parent_eq, upwards_congr (funext h.parent_eq)]

theorem releaseBelow (target : Nat) : Mirrors [] (t.releaseBelow target) (u.releaseBelow target) := by
  have hsame := foldl_release_same (t.descendants t.slots.size target) t
  have hsame' := foldl_release_same (t.descendants t.slots.size target) u
  have hslot := getElem?_foldl_release (t.descendants t.slots.size target) t
  have hslot' := getElem?_foldl_release (t.descendants t.slots.size target) u
  have hsize := size_foldl_release (t.descendants t.slots.size target) t
  have hsize' := size_foldl_release (t.descendants t.slots.size target) u
  unfold Tree.releaseBelow
  rw [descendants_congr (funext h.children_eq), h.size]
  generalize t.descendants t.slots.size target = below at hsame hsame' hslot hslot' hsize hsize' ⊢
  generalize below.foldl release t = t₁ at hsame hslot hsize ⊢
  generalize below.foldl release u = u₁ at hsame' hslot' hsize' ⊢
  have hversion : t₁.version = t.version := by rw [hsame]; rfl
  have hbase : t₁.base = t.base := by rw [hsame]
  have hcurrent : ∀ s, t₁.current s = t.current s :=
    current_congr (by rw [hsame]) hbase (by rw [hsame])
  refine ⟨?_, ?_, fun j hj s hs => ?_⟩
  · rw [hsize', hsize, h.size]
  · rw [hsame', hsame, h.free]
  · rw [hslot] at hs
    rw [hslot', h.size, hversion, hbase, hcurrent]
    split at hs
    · next hin =>
      cases hs
      rw [if_pos hin, current_of_seen rfl]
      exact ⟨Nat.le_add_right _ _, Nat.le_refl _, _, rfl, rfl⟩
    · next hin =>
      rw [if_neg hin]
      exact h.slot j hj s hs

/-- The nodes that are not moved at once move when they are next looked at. -/
theorem displace (e : Edit) {above : List Nat} {u' : Tree} (hfree : u'.free = u.free)
    (hslots : u'.slots = u.slots.mapIdx fun j s => if j ∈ above then s else s.shift (.ofEdit e)) :
    Mirrors above (t.displace e) u' := by
  refine ⟨?_, hfree.trans h.free, fun j hj s hs => ?_⟩
  · rw [hslots, Array.size_mapIdx, h.size]
    rfl
  · obtain ⟨h₁, h₂, s', hs', hcore⟩ := h.slot j List.not_mem_nil s hs
    refine ⟨h₁, ?_, s'.shift (.ofEdit e), ?_, ?_⟩
    · have hversion : (t.displace e).version = t.version + 1 := by
        simp only [Tree.displace, version, Array.size_push, Nat.add_assoc]
      omega
    · rw [hslots, Array.getElem?_mapIdx, hs', Option.map_some, if_neg hj]
    · rw [Slot.core_shift, hcore]
      exact (core_current_push (g := t.displace e) rfl rfl h₁ h₂).symm

end Mirrors

/-- The nodes above the place have not moved yet, in either tree. -/
theorem SameCore.displace {j : Nat} (h : SameCore t u j) (e : Edit) {above : List Nat} (hj : j ∈ above)
    {u' : Tree}
    (hslots : u'.slots = u.slots.mapIdx fun j s => if j ∈ above then s else s.shift (.ofEdit e)) :
    SameCore (t.displace e) u' j := by
  intro s hs
  obtain ⟨s', hs', hcore⟩ := h s hs
  exact ⟨s', by rw [hslots, Array.getElem?_mapIdx, hs', Option.map_some, if_pos hj], hcore⟩

/-- A slot that is emptied is given the present date. -/
theorem UpToDate.releaseBelow {j : Nat} (h : t.UpToDate j) (target : Nat) :
    (t.releaseBelow target).UpToDate j := by
  have hversion : (t.releaseBelow target).version = t.version := by
    unfold Tree.releaseBelow
    rw [foldl_release_same]
    rfl
  intro s hs
  unfold Tree.releaseBelow at hs
  rw [getElem?_foldl_release] at hs
  rw [hversion]
  split at hs
  · cases hs
    rfl
  · exact h s hs

/-! ### Changing some slots -/

theorem getElem?_modifyAll_of_not_mem (t : Tree) (f : Slot → Slot) {j : Nat} (hj : j ∉ ids) :
    (t.modifyAll ids f).slots[j]? = t.slots[j]? := by
  unfold modifyAll
  dsimp only
  generalize t.slots = slots
  induction ids generalizing slots with
  | nil => rfl
  | cons id ids ih =>
    rw [List.mem_cons, not_or] at hj
    rw [List.foldl_cons, ih hj.2, Array.getElem?_modify, if_neg (Ne.symm hj.1)]

/-- Some slots are changed one after the other, possibly more than once: what every change keeps of a
slot is kept. -/
theorem modifyAll_induct {P : Slot → Prop} {j : Nat} (h : ∀ s, t.slots[j]? = some s → P s)
    (hf : ∀ s, P s → P (f s)) : ∀ s, (t.modifyAll ids f).slots[j]? = some s → P s := by
  unfold modifyAll
  dsimp only
  generalize t.slots = slots at h ⊢
  induction ids generalizing slots with
  | nil => exact h
  | cons id ids ih =>
    refine ih _ fun s hs => ?_
    rw [Array.getElem?_modify] at hs
    split at hs
    · obtain ⟨s₀, hs₀, rfl⟩ := Option.map_eq_some_iff.1 hs
      exact hf s₀ (h s₀ hs₀)
    · exact h s hs

theorem UpToDate.modifyAll {j : Nat} (h : t.UpToDate j) (hf : ∀ s, (f s).seen = s.seen) :
    (t.modifyAll ids f).UpToDate j :=
  modifyAll_induct (P := fun s => s.seen = t.version) h fun s hs => (hf s).trans hs

/-- Slots that are written with the present date are up to date. -/
theorem upToDate_modifyAll (hf : ∀ s, (f s).seen = t.version) {j : Nat} (hj : j ∈ ids) :
    (t.modifyAll ids f).UpToDate j := by
  show ∀ s, (t.modifyAll ids f).slots[j]? = some s → s.seen = t.version
  unfold Tree.modifyAll
  dsimp only
  generalize t.slots = slots
  induction ids generalizing slots with
  | nil => cases hj
  | cons id ids ih =>
    rw [List.foldl_cons]
    by_cases hmem : j ∈ ids
    · exact ih hmem _
    · obtain rfl := (List.mem_cons.1 hj).resolve_right hmem
      intro s hs
      have := getElem?_modifyAll_of_not_mem { t with slots := slots.modify j f } f hmem
      rw [show (({ t with slots := slots.modify j f } : Tree).modifyAll ids f).slots
        = ids.foldl (fun slots id => slots.modify id f) (slots.modify j f) from rfl] at this
      rw [this, Array.getElem?_modify, if_pos rfl] at hs
      obtain ⟨s₀, -, rfl⟩ := Option.map_eq_some_iff.1 hs
      exact hf s₀

/-- The same changes to slots that say the same. -/
theorem SameCore.modifyAll {j : Nat} (h : SameCore t u j)
    (hf : ∀ s s', s'.core = s.core → (f' s').core = (f s).core) :
    SameCore (t.modifyAll ids f) (u.modifyAll ids f') j := by
  unfold SameCore Tree.modifyAll
  dsimp only
  change ∀ s, t.slots[j]? = some s → ∃ s', u.slots[j]? = some s' ∧ s'.core = s.core at h
  generalize t.slots = slots at h ⊢
  generalize u.slots = slots' at h ⊢
  induction ids generalizing slots slots' with
  | nil => exact h
  | cons id ids ih =>
    refine ih _ _ fun s hs => ?_
    rw [Array.getElem?_modify] at hs ⊢
    split at hs
    · obtain ⟨s₀, hs₀, rfl⟩ := Option.map_eq_some_iff.1 hs
      obtain ⟨s', hs', hcore⟩ := h s₀ hs₀
      exact ⟨f' s', by rw [if_pos ‹_›, hs', Option.map_some], hf s₀ s' hcore⟩
    · rw [if_neg ‹_›]
      exact h s hs

/-- Changing slots, among them all that are out of step, brings these back into step if they are written
with the present date. -/
theorem Mirrors.modifyAll (h : Mirrors off t u) (hoff : ∀ j ∈ off, j ∈ ids)
    (hsame : ∀ j ∈ ids, SameCore t u j) (hdate : ∀ j ∈ ids, (t.modifyAll ids f).UpToDate j)
    (hf : ∀ s s', s'.core = s.core → (f' s').core = (f s).core) :
    Mirrors [] (t.modifyAll ids f) (u.modifyAll ids f') := by
  have hothers : Mirrors ids (t.modifyAll ids f) (u.modifyAll ids f') := by
    refine ⟨?_, h.free, fun j hj s hs => ?_⟩
    · rw [size_modifyAll, size_modifyAll, h.size]
    · rw [getElem?_modifyAll_of_not_mem t f hj] at hs
      rw [getElem?_modifyAll_of_not_mem u f' hj]
      exact h.slot j (fun hmem => hj (hoff j hmem)) s hs
  exact hothers.of_sameCore (fun j hj => (hsame j hj).modifyAll hf) hdate

/-! ### Planting -/

/-- Slots have been written, all of them with the present date. -/
structure Continues (t t' : Tree) : Prop where
  version : t'.version = t.version
  upToDate : ∀ j, t.UpToDate j → t'.UpToDate j

theorem Continues.trans {t'' : Tree} (h : Continues t t') (h' : Continues t' t'') : Continues t t'' :=
  ⟨h'.version.trans h.version, fun j hj => h'.upToDate j (h.upToDate j hj)⟩

theorem getElem?_plantedSlot (t : Tree) (id j : Nat) (slot : Slot) {s : Slot}
    (hs : (t.slots.setIfInBounds id slot)[j]? = some s) :
    (id = j ∧ s = slot) ∨ (id ≠ j ∧ t.slots[j]? = some s) := by
  rw [Array.getElem?_setIfInBounds] at hs
  split at hs
  · next heq =>
    split at hs
    · exact .inl ⟨heq, (Option.some.inj hs).symm⟩
    · cases hs
  · next hne => exact .inr ⟨hne, hs⟩

/-- Writing the slot of a new node brings it into step. -/
theorem Mirrors.write {id : Nat} (h : Mirrors [id] t u) (slot slot' : Slot)
    (hseen : slot.seen = t.version) (hcore : slot'.core = slot.core) :
    Mirrors [] { t with slots := t.slots.setIfInBounds id slot }
        { u with slots := u.slots.setIfInBounds id slot' }
      ∧ Continues t { t with slots := t.slots.setIfInBounds id slot }
      ∧ ({ t with slots := t.slots.setIfInBounds id slot } : Tree).UpToDate id := by
  have hdate : ({ t with slots := t.slots.setIfInBounds id slot } : Tree).UpToDate id := by
    intro s hs
    rcases getElem?_plantedSlot t id id slot hs with ⟨-, rfl⟩ | ⟨hne, -⟩
    · exact hseen
    · exact absurd rfl hne
  have hothers : Mirrors [id] { t with slots := t.slots.setIfInBounds id slot }
      { u with slots := u.slots.setIfInBounds id slot' } := by
    refine ⟨by simp only [Array.size_setIfInBounds, h.size], h.free, fun j hj s hs => ?_⟩
    rcases getElem?_plantedSlot t id j slot hs with ⟨rfl, -⟩ | ⟨hne, hs⟩
    · exact absurd List.mem_cons_self hj
    · dsimp only
      rw [Array.getElem?_setIfInBounds, if_neg hne]
      exact h.slot j hj s hs
  have hsame : SameCore { t with slots := t.slots.setIfInBounds id slot }
      { u with slots := u.slots.setIfInBounds id slot' } id := by
    intro s hs
    rcases getElem?_plantedSlot t id id slot hs with ⟨-, rfl⟩ | ⟨hne, -⟩
    · have hlt : id < t.slots.size := by
        have := (Array.getElem?_eq_some_iff.1 hs).1
        simpa using this
      refine ⟨slot', ?_, hcore⟩
      dsimp only
      rw [Array.getElem?_setIfInBounds, if_pos rfl, if_pos (by rw [h.size]; exact hlt)]
    · exact absurd rfl hne
  refine ⟨hothers.of_sameCore ?_ ?_, ⟨rfl, fun j hj s hs => ?_⟩, hdate⟩
  · intro j hj
    rwa [List.mem_singleton.1 hj]
  · intro j hj
    rwa [List.mem_singleton.1 hj]
  · rcases getElem?_plantedSlot t id j slot hs with ⟨rfl, rfl⟩ | ⟨-, hs⟩
    · exact hseen
    · exact hj s hs

/-- Both trees hand out the same slot, which is out of step until it is written. -/
theorem Mirrors.allocate (h : Mirrors [] t u) :
    u.allocate.1 = t.allocate.1 ∧ Mirrors [t.allocate.1] t.allocate.2 u.allocate.2
      ∧ t.allocate.2.version = t.version
      ∧ ∀ j, j ≠ t.allocate.1 → t.allocate.2.slots[j]? = t.slots[j]? := by
  unfold Tree.allocate
  rw [h.free]
  cases t.free with
  | nil =>
    have hother : ∀ (v : Tree) j, j ≠ v.slots.size → (v.slots.push {})[j]? = v.slots[j]? :=
      fun v j hj => by rw [Array.getElem?_push, if_neg hj]
    refine ⟨h.size, ⟨?_, rfl, fun j hj s hs => ?_⟩, rfl, hother t⟩
    · simp only [Array.size_push, h.size]
    · have hne : j ≠ t.slots.size := fun heq => hj (List.mem_singleton.2 heq)
      dsimp only at hs ⊢
      rw [hother t j hne] at hs
      rw [hother u j (by rwa [h.size])]
      exact h.slot j List.not_mem_nil s hs
  | cons id rest =>
    exact ⟨rfl, ⟨h.size, rfl, fun j _ s hs => h.slot j List.not_mem_nil s hs⟩, rfl, fun _ _ => rfl⟩

mutual

/-- Planting the same tree keeps a mirror, even if the slot it goes into was out of step. -/
theorem Mirrors.plant : ∀ (s : Subtree) {t u : Tree} (parent : Option Nat) (id : Nat),
    Mirrors [id] t u → Mirrors [] (t.plant parent id s) (u.plant parent id s)
      ∧ Continues t (t.plant parent id s) ∧ (t.plant parent id s).UpToDate id
  | .node info children, t, u, parent, id, h => by
    rw [plant_node, plant_node]
    obtain ⟨hmirrors, hcontinues, hdate⟩ := h.write (plantedSlot t.version parent info [] {})
      (plantedSlot u.version parent info [] {}) rfl rfl
    obtain ⟨hmirrors', hcontinues'⟩ :=
      Mirrors.plantBelow children id [] (.ofFootprint info.reads) hmirrors hdate
    exact ⟨hmirrors', hcontinues.trans hcontinues', hcontinues'.upToDate id hdate⟩

theorem Mirrors.plantBelow : ∀ (ss : List Subtree) {t u : Tree} (id : Nat) (planted : List Nat)
    (extent : Extent), Mirrors [] t u → t.UpToDate id →
    Mirrors [] (t.plantBelow id planted extent ss) (u.plantBelow id planted extent ss)
      ∧ Continues t (t.plantBelow id planted extent ss)
  | [], t, u, id, planted, extent, h, hdate => by
    rw [Tree.plantBelow, Tree.plantBelow]
    have hwrite : Mirrors []
        (t.modifyAll [id] fun s => { s with children := planted.reverse, extent := extent })
        (u.modifyAll [id] fun s => { s with children := planted.reverse, extent := extent }) := by
      refine h.modifyAll (fun j hj => (List.not_mem_nil hj).elim) (fun j hj => ?_) (fun j hj => ?_)
        fun s s' hcore => congrArg
          (fun c : Slot => { c with children := planted.reverse, extent := extent }) hcore
      · exact h.sameCore List.not_mem_nil (by rwa [List.mem_singleton.1 hj])
      · exact UpToDate.modifyAll (by rwa [List.mem_singleton.1 hj]) fun _ => rfl
    have hothers : ∀ j, t.UpToDate j →
        (t.modifyAll [id] fun s => { s with children := planted.reverse, extent := extent }).UpToDate j :=
      fun j hj => hj.modifyAll fun _ => rfl
    exact ⟨hwrite, rfl, hothers⟩
  | s :: rest, t, u, id, planted, extent, h, hdate => by
    rw [Tree.plantBelow, Tree.plantBelow]
    dsimp only
    obtain ⟨hchild, hmirrors, hversion, hother⟩ := h.allocate
    rw [hchild]
    generalize t.allocate.1 = child at hmirrors hother ⊢
    generalize t.allocate.2 = t₁ at hmirrors hversion hother ⊢
    generalize u.allocate.2 = u₁ at hmirrors ⊢
    obtain ⟨hmirrors₂, hcontinues₂, hdate₂⟩ := Mirrors.plant s (some id) child hmirrors
    generalize t₁.plant (some id) child s = t₂ at hmirrors₂ hcontinues₂ hdate₂ ⊢
    generalize u₁.plant (some id) child s = u₂ at hmirrors₂ ⊢
    -- the new slot is written at once, so whatever was up to date still is
    have hcontinues : Continues t t₂ := by
      refine ⟨hcontinues₂.version.trans hversion, fun j hj => ?_⟩
      by_cases heq : j = child
      · exact heq ▸ hdate₂
      · refine hcontinues₂.upToDate j fun s hs => ?_
        rw [hother j heq] at hs
        exact (hj s hs).trans hversion.symm
    have hextent : ((u₂.slots[child]?).map (·.extent)).getD {}
        = ((t₂.slots[child]?).map (·.extent)).getD {} := by
      rw [(hmirrors₂.sameCore List.not_mem_nil hdate₂).map_eq hmirrors₂.size fun _ => rfl]
    rw [hextent]
    obtain ⟨hmirrors₃, hcontinues₃⟩ :=
      Mirrors.plantBelow rest id (child :: planted) _ hmirrors₂ (hcontinues.upToDate id hdate)
    exact ⟨hmirrors₃, hcontinues.trans hcontinues₃⟩

end

/-! ### Patches and histories -/

/-- What stretching makes of a slot, line, column and date aside. -/
theorem core_stretch (t : Tree) (d : Shift) (s : Slot) :
    (t.stretch d s).core = { s.core.shift d with
      info := { (s.core.shift d).info with stop := Offset.move s.core.info.stop d.delta } } := rfl

/-- A patch keeps a mirror. -/
theorem Mirrors.graft (h : Mirrors [] t u) (target : Nat) (replacement : Subtree) (e : Edit) :
    Mirrors [] (t.grafted target replacement e) (u.graftAtOnce target replacement e) := by
  have hcaught := getElem?_foldl_catchUp (t.ancestors target) t
  have hview := foldl_catchUp_sameView (t.ancestors target) t
  unfold grafted graftAtOnce
  dsimp only
  rw [h.parent_eq, h.ancestors_eq]
  generalize t.ancestors target = above at hcaught hview ⊢
  generalize t.parent? target = parent
  generalize above.foldl catchUp t = t₁ at hcaught hview ⊢
  have h₁ := h.sameView hview
  have hdate₁ : ∀ j ∈ above, t₁.UpToDate j := by
    intro j hj s hs
    rw [hcaught, if_pos hj] at hs
    obtain ⟨s₀, -, rfl⟩ := Option.map_eq_some_iff.1 hs
    rw [current_seen, hview.version]
  -- slots are emptied
  have h₂ := h₁.releaseBelow target
  have hdate₂ : ∀ j ∈ above, (t₁.releaseBelow target).UpToDate j :=
    fun j hj => (hdate₁ j hj).releaseBelow target
  generalize t₁.releaseBelow target = t₂ at h₂ hdate₂ ⊢
  generalize u.releaseBelow target = u₂ at h₂ ⊢
  -- offsets move: for the ancestors they have not done so yet
  generalize hu₃ : ({ u₂ with
    source := u₂.source.edit e
    documentReads := u₂.documentReads.shift e.offset e.stop e.delta
    slots := u₂.slots.mapIdx fun j s => if j ∈ above then s else s.shift (.ofEdit e) } : Tree) = u₃
  have h₃ : Mirrors above (t₂.displace e) u₃ := by
    subst hu₃
    exact h₂.displace e rfl rfl
  have hsame₃ : ∀ j ∈ above, SameCore (t₂.displace e) u₃ j := by
    subst hu₃
    exact fun j hj => (h₂.sameCore List.not_mem_nil (hdate₂ j hj)).displace e hj rfl
  -- the ancestors are stretched
  have hdate₄ : ∀ j ∈ above,
      ((t₂.displace e).modifyAll above ((t₂.displace e).stretch (.ofEdit e))).UpToDate j :=
    fun j hj => upToDate_modifyAll (fun _ => rfl) hj
  have h₄ : Mirrors [] ((t₂.displace e).modifyAll above ((t₂.displace e).stretch (.ofEdit e)))
      (u₃.modifyAll above (u₃.stretch (.ofEdit e))) :=
    h₃.modifyAll (fun _ hj => hj) hsame₃ hdate₄ fun s s' hcore => by
      rw [core_stretch, core_stretch, hcore]
  generalize (t₂.displace e).modifyAll above ((t₂.displace e).stretch (.ofEdit e)) = t₄ at h₄ hdate₄ ⊢
  generalize u₃.modifyAll above (u₃.stretch (.ofEdit e)) = u₄ at h₄ ⊢
  -- the replacement is planted
  obtain ⟨h₅, hcontinues, htarget⟩ := Mirrors.plant replacement parent target (h₄.mono [target])
  have hdate₅ : ∀ j ∈ above, (t₄.plant parent target replacement).UpToDate j :=
    fun j hj => hcontinues.upToDate j (hdate₄ j hj)
  generalize t₄.plant parent target replacement = t₅ at h₅ htarget hdate₅ ⊢
  generalize u₄.plant parent target replacement = u₅ at h₅ ⊢
  have hextent : ((u₅.slots[target]?).map (·.extent)).getD {}
      = ((t₅.slots[target]?).map (·.extent)).getD {} := by
    rw [(h₅.sameCore List.not_mem_nil htarget).map_eq h₅.size fun _ => rfl]
  rw [hextent]
  generalize ((t₅.slots[target]?).map (·.extent)).getD {} = new
  exact h₅.modifyAll (fun _ hj => (List.not_mem_nil hj).elim)
    (fun j hj => h₅.sameCore List.not_mem_nil (hdate₅ j hj))
    (fun j hj => (hdate₅ j hj).modifyAll fun _ => rfl)
    fun s s' hcore => congrArg (fun c : Slot => { c with extent := c.extent.cover new }) hcore

/-- Every operation keeps a mirror. -/
theorem Mirrors.perform (h : Mirrors [] t u) (limit : Nat) (op : Op) :
    Mirrors [] (t.perform limit op) (u.performAtOnce op) := by
  cases op with
  | graft target replacement e => exact (h.graft target replacement e).settle limit
  | look j => exact h.sameView (catchUp_sameView t j)
  | compact => exact h.compact

theorem Mirrors.performAll (h : Mirrors [] t u) (limit : Nat) (ops : List Op) :
    Mirrors [] (t.performAll limit ops) (u.performAllAtOnce ops) := by
  induction ops generalizing t u with
  | nil => exact h
  | cons op ops ih => exact ih (h.perform limit op)

/-- What is seen of a node is what stands in its slot in the mirror. -/
theorem Mirrors.node?_eq (h : Mirrors [] t u) (id : Nat) :
    (t.node? id).map Slot.core = (u.slots[id]?).map Slot.core := by
  unfold node?
  cases hs : t.slots[id]? with
  | none => rw [getElem?_eq_none_of_size h.size hs]; rfl
  | some s =>
    obtain ⟨-, -, s', hs', hcore⟩ := h.slot id List.not_mem_nil s hs
    rw [hs', Option.map_some, Option.map_some, Option.map_some, hcore]

/-- **Moving nodes late does not show.** A tree is patched, looked at and compacted in any order, patches
emptying the log at any limit.  Then what is seen of a node, its position in lines and columns aside, is
what stands in its slot if the log is emptied first and every patch moves all nodes at once: start, end,
the offset at which it was asked for, its reads, their extent, and its links.  So neither the looks nor
the moments at which the log is emptied make a difference. -/
theorem node?_performAll_eq_atOnce (t : Tree) (h : t.Dated) (limit : Nat) (ops : List Op) :
    (∀ id, ((t.performAll limit ops).node? id).map Slot.core
        = ((t.compact.performAllAtOnce (patchesOf ops)).slots[id]?).map Slot.core)
      ∧ ∀ (limit' : Nat) (ops' : List Op), patchesOf ops' = patchesOf ops →
          ∀ id, ((t.performAll limit' ops').node? id).map Slot.core
            = ((t.performAll limit ops).node? id).map Slot.core := by
  have hspec : ∀ (limit : Nat) (ops : List Op) (id : Nat),
      ((t.performAll limit ops).node? id).map Slot.core
        = ((t.compact.performAllAtOnce (patchesOf ops)).slots[id]?).map Slot.core := by
    intro limit ops id
    rw [performAllAtOnce_patchesOf]
    exact (h.mirrors_compact.performAll limit ops).node?_eq id
  refine ⟨hspec limit ops, fun limit' ops' heq id => ?_⟩
  rw [hspec limit' ops', heq, hspec limit ops]

/-- Two patches are pending, and the second leaf is looked at between them: it has moved forth and back,
as it does if it is never looked at and each patch empties the log. -/
theorem node?_performAll_pairOps :
    pairTree.Dated
      ∧ (pairTree.performAll 1 (patchesOf pairOps)).pending.size = 0
      ∧ (pairTree.performAll pendingLimit pairOps).pending.size = 2
      ∧ (∀ id, ((pairTree.performAll pendingLimit pairOps).node? id).map Slot.core
          = ((pairTree.compact.performAllAtOnce (patchesOf pairOps)).slots[id]?).map Slot.core)
      ∧ ((pairTree.performAll pendingLimit pairOps).node? 2).map (fun s => (s.info.start, s.info.stop))
          = some (1, 2)
      ∧ ∀ id, ((pairTree.performAll 1 (patchesOf pairOps)).node? id).map Slot.core
          = ((pairTree.performAll pendingLimit pairOps).node? id).map Slot.core := by
  have hdated : pairTree.Dated := dated_ofSubtree _ _ _
  obtain ⟨hatOnce, hmoments⟩ := node?_performAll_eq_atOnce pairTree hdated pendingLimit pairOps
  exact ⟨hdated, by decide +kernel, by decide +kernel, hatOnce, by decide +kernel,
    hmoments 1 (patchesOf pairOps) (by simp [patchesOf])⟩

end Tree

end Packrat
