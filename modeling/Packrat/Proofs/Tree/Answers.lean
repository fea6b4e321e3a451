import Packrat.Proofs.Tree.Readers
import Packrat.Tree.Json

/-!
What a live tree answers.

All questions to a tree are answered from its root, its links and what is seen of its nodes; how far
the nodes have caught up with the log shows in none of them.  So two trees of which the same is seen
give the same answers (`Tree.SameView.answers`): to questions about one node, to walks, to the search
for readers, and as a text or as JSON.

Two slots that differ only in what they have seen have the same type, value, parent and children
(`Tree.current_name`, `Tree.current_links`), which is why these may be read off a slot at once.
-/

namespace Packrat

namespace Tree

variable {t t' : Tree}

/-- Two trees give the same answers to all questions. -/
structure SameAnswers (t t' : Tree) : Prop where
  source : t'.source = t.source
  root : t'.root = t.root
  size : t'.size = t.size
  documentReads : t'.documentReads = t.documentReads
  /-- What a node says: its place, its span and position, its rule and what it has read. -/
  node : ∀ id, t'.node? id = t.node? id
  text : ∀ id, t'.text? id = t.text? id
  subtree : ∀ id, t'.subtree? id = t.subtree? id
  preorder : t'.preorder = t.preorder
  findAll : ∀ type, t'.findAll type = t.findAll type
  findFirst : ∀ type, t'.findFirst type = t.findFirst type
  lineage : ∀ id, t'.lineage? id = t.lineage? id
  ancestor : ∀ above id, t'.isAncestor? above id = t.isAncestor? above id
  commonAncestor : ∀ id id', t'.commonAncestor? id id' = t.commonAncestor? id id'
  readers : ∀ start stop, (t'.readers start stop).1 = (t.readers start stop).1
  nodeText : ∀ id, t'.nodeText? id = t.nodeText? id
  print : t'.print = t.print
  json : t'.toJson = t.toJson

/-! ### Slots -/

theorem foldl_shift_name (ds : List Shift) (s : Slot) :
    (ds.foldl Slot.shift s).info.type = s.info.type
      ∧ (ds.foldl Slot.shift s).info.value = s.info.value := by
  induction ds generalizing s with
  | nil => exact ⟨rfl, rfl⟩
  | cons d ds ih => exact ih (s.shift d)

theorem current_name (t : Tree) (s : Slot) :
    (t.current s).info.type = s.info.type ∧ (t.current s).info.value = s.info.value := by
  have hname := foldl_shift_name (t.pending.extract (s.seen - t.base) t.pending.size).toList s
  rw [Array.foldl_toList] at hname
  unfold current
  split
  · exact ⟨rfl, rfl⟩
  · dsimp only
    split
    · exact hname
    · exact hname

theorem slotText_current (t : Tree) (s : Slot) : slotText (t.current s) = slotText s := by
  unfold slotText
  rw [(current_name t s).1, (current_name t s).2, (current_links t s).2]

/-- Whatever does not change when a slot catches up is the same for both trees. -/
theorem SameView.map_slot {α : Type} (h : SameView t t') {f : Slot → α}
    (hf : ∀ s, f (t.current s) = f s) (id : Nat) :
    (t'.slots[id]?).map f = (t.slots[id]?).map f := by
  rcases h.slot id with heq | heq
  · rw [heq]
  · rw [heq, node?, Option.map_map]
    exact congrArg (Option.map · _) (funext hf)

/-! ### Walks -/

theorem preorderFrom_congr (h : t'.children = t.children) (fuel id : Nat) :
    t'.preorderFrom fuel id = t.preorderFrom fuel id := by
  induction fuel generalizing id with
  | zero => rfl
  | succ fuel ih =>
    rw [preorderFrom, preorderFrom, h]
    exact congrArg (id :: List.flatMap · _) (funext ih)

theorem upwards_congr (h : t'.parent? = t.parent?) (fuel : Nat) (id : Option Nat) :
    t'.upwards fuel id = t.upwards fuel id := by
  induction fuel generalizing id with
  | zero => rfl
  | succ fuel ih =>
    cases id with
    | none => rfl
    | some id => rw [upwards, upwards, h, ih]

theorem linesFrom_congr (h : t'.children = t.children) (htext : t'.nodeText? = t.nodeText?)
    (fuel indent id : Nat) : t'.linesFrom fuel indent id = t.linesFrom fuel indent id := by
  induction fuel generalizing indent id with
  | zero => rfl
  | succ fuel ih =>
    rw [linesFrom, linesFrom, h, htext]
    exact congrArg (_ :: List.flatMap · _) (funext (ih (indent + 1)))

theorem subtreeFrom_congr (h : t'.children = t.children) (hnode : t'.node? = t.node?)
    (fuel id : Nat) : t'.subtreeFrom fuel id = t.subtreeFrom fuel id := by
  induction fuel generalizing id with
  | zero => rfl
  | succ fuel ih =>
    rw [subtreeFrom, subtreeFrom, h, hnode]
    exact congrArg (Subtree.node _ <| List.map · _) (funext ih)

/-! ### Trees of which the same is seen -/

namespace SameView

variable (h : SameView t t')

include h

theorem children_eq : t'.children = t.children :=
  funext fun id => congrArg (·.getD []) (h.map_slot (fun s => (current_links t s).2) id)

theorem parent?_eq : t'.parent? = t.parent? := by
  funext id
  have hjoin : ∀ o : Option Slot, o.bind (·.parent) = (o.map (·.parent)).join :=
    fun o => by cases o <;> rfl
  unfold parent?
  rw [hjoin, hjoin, h.map_slot fun s => (current_links t s).1]

theorem nodeText?_eq : t'.nodeText? = t.nodeText? :=
  funext (h.map_slot (slotText_current t))

theorem lineage?_congr (id : Nat) : t'.lineage? id = t.lineage? id := by
  unfold lineage?
  rw [h.size, upwards_congr h.parent?_eq]

theorem preorder_congr : t'.preorder = t.preorder := by
  unfold preorder
  rw [h.size, h.root, preorderFrom_congr h.children_eq]

theorem findAll_eq (type : Bytes) : t'.findAll type = t.findAll type := by
  unfold findAll
  rw [h.preorder_congr]
  refine List.filter_congr fun id _ => ?_
  have htype := h.map_slot (f := fun s => s.info.type == type)
    (fun s => by rw [(current_name t s).1]) id
  have hany : ∀ o : Option Slot, o.any (fun s => s.info.type == type)
      = (o.map fun s => s.info.type == type).getD false := fun o => by cases o <;> rfl
  rw [hany, hany, htype]

theorem subtree?_eq (id : Nat) : t'.subtree? id = t.subtree? id := by
  unfold subtree?
  rw [h.size, subtreeFrom_congr h.children_eq (funext h.node?_eq)]

end SameView

/-! ### The search for readers

A search lets nodes catch up on its way, so two searches go on with different trees; but what is seen
of both is what was seen of one tree before. -/

mutual

theorem readersFrom_fst (a b : Nat) : ∀ (fuel id : Nat) {t₁ t₂ : Tree}, SameView t t₁ →
    SameView t t₂ → (readersFrom a b fuel id t₁).1 = (readersFrom a b fuel id t₂).1
  | 0, _, _, _, _, _ => by
    rw [readersFrom, readersFrom]
  | fuel + 1, id, t₁, t₂, h₁, h₂ => by
    have hslot : (t₁.catchUp id).slots[id]? = (t₂.catchUp id).slots[id]? := by
      rw [getElem?_catchUp, getElem?_catchUp, if_pos rfl, if_pos rfl, h₁.node?_eq, h₂.node?_eq]
    rw [readersFrom, readersFrom]
    simp only [hslot]
    cases (t₂.catchUp id).slots[id]? with
    | none => rfl
    | some s =>
      dsimp only
      split
      · have hbelow := readersAmong_fst a b fuel s.children
          (h₁.trans (catchUp_sameView t₁ id)) (h₂.trans (catchUp_sameView t₂ id))
        rw [hbelow]
      · rfl

theorem readersAmong_fst (a b fuel : Nat) : ∀ (ids : List Nat) {t₁ t₂ : Tree}, SameView t t₁ →
    SameView t t₂ → (readersAmong a b fuel ids t₁).1 = (readersAmong a b fuel ids t₂).1
  | [], _, _, _, _ => by
    rw [readersAmong, readersAmong]
  | id :: ids, t₁, t₂, h₁, h₂ => by
    rw [readersAmong, readersAmong]
    dsimp only
    rw [readersFrom_fst a b fuel id h₁ h₂,
      readersAmong_fst a b fuel ids (h₁.trans (readersFrom_sameView a b fuel id t₁))
        (h₂.trans (readersFrom_sameView a b fuel id t₂))]

end

/-- **How far the nodes have caught up shows in no answer.** -/
theorem SameView.answers (h : SameView t t') : SameAnswers t t' where
  source := h.source
  root := h.root
  size := by
    unfold Tree.size
    rw [h.size, h.free]
  documentReads := h.documentReads
  node := h.node?_eq
  text id := by
    unfold text?
    rw [h.node?_eq, h.source]
  subtree := h.subtree?_eq
  preorder := h.preorder_congr
  findAll := h.findAll_eq
  findFirst type := by
    unfold findFirst
    rw [h.findAll_eq]
  lineage := h.lineage?_congr
  ancestor above id := by
    unfold isAncestor?
    rw [h.lineage?_congr]
  commonAncestor id id' := by
    unfold commonAncestor?
    rw [h.lineage?_congr, h.lineage?_congr, h.root]
  readers start stop := by
    unfold readers
    rw [h.size, h.root]
    exact readersFrom_fst start stop _ _ h (.refl t)
  nodeText := congrFun h.nodeText?_eq
  print := by
    unfold print
    rw [h.size, h.root, linesFrom_congr h.children_eq h.nodeText?_eq]
  json := by
    unfold toJson
    rw [h.root, h.subtree?_eq]

end Tree

end Packrat
