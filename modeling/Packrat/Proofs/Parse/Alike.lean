import Packrat.Parse.Matcher
import Packrat.Proofs.Displacement

/-!
Outcomes that correspond.

Two matches in different texts correspond if they end in corresponding offsets and yield
corresponding pieces.  Which offsets and which nodes correspond is left open here: `M` relates offsets
and `N` relates nodes with their keys.  A piece of text corresponds to the same bytes between
corresponding offsets.

What is put together from corresponding pieces corresponds, and so does a node around them
(`Yield.Alike.wrap`).
-/

namespace Packrat

namespace Parse

variable (M : Nat → Nat → Prop) (N : Key × Subtree → Key × Subtree → Prop)

inductive Piece.Alike : Piece → Piece → Prop
  | node {key key' : Key} {tree tree' : Subtree} :
      N (key, tree) (key', tree') → Alike (.node key tree) (.node key' tree')
  | text {bytes : Bytes} {o o' : Nat} : M o o' → M (o + bytes.length) (o' + bytes.length) →
      Alike (.text bytes o) (.text bytes o')

inductive Yield.Alike : Yield → Yield → Prop
  | one {p p' : Piece} : p.Alike M N p' → Alike (.one p) (.one p')
  | many {ps ps' : Array Piece} :
      List.Forall₂ (Piece.Alike M N) ps.toList ps'.toList → Alike (.many ps) (.many ps')

inductive Outcome.Alike : Outcome → Outcome → Prop
  | fail : Alike .fail .fail
  | ok {stop stop' : Nat} {y y' : Yield} : M stop stop' → y.Alike M N y' →
      Alike (.ok stop y) (.ok stop' y')

variable {M : Nat → Nat → Prop} {N : Key × Subtree → Key × Subtree → Prop}

theorem Yield.alike_empty : Yield.Alike M N .empty .empty := .many .nil

theorem Yield.Alike.pieces {y y' : Yield} (h : y.Alike M N y') :
    List.Forall₂ (Piece.Alike M N) y.pieces.toList y'.pieces.toList := by
  cases h with
  | one hp => exact .cons hp .nil
  | many hps => exact hps

/-- Pieces that are put behind corresponding ones. -/
theorem Yield.Alike.append {y y' : Yield} (h : y.Alike M N y') {ps ps' : Array Piece}
    (hps : List.Forall₂ (Piece.Alike M N) ps.toList ps'.toList) :
    List.Forall₂ (Piece.Alike M N) (ps ++ y.pieces).toList (ps' ++ y'.pieces).toList := by
  simpa using List.rel_append hps h.pieces

theorem forall₂_node? {ps ps' : List Piece} (h : List.Forall₂ (Piece.Alike M N) ps ps') :
    List.Forall₂ N (ps.filterMap Piece.node?) (ps'.filterMap Piece.node?) := by
  induction h with
  | nil => exact .nil
  | cons hp _ ih =>
    cases hp with
    | node hn => exact .cons hn ih
    | text _ _ => exact ih

theorem Yield.Alike.nodes {y y' : Yield} (h : y.Alike M N y') :
    List.Forall₂ N y.nodes.toList y'.nodes.toList := by
  simpa [Yield.nodes] using forall₂_node? h.pieces

theorem Outcome.Alike.nodes {out out' : Outcome} (h : out.Alike M N out') :
    List.Forall₂ N out.nodes.toList out'.nodes.toList := by
  cases h with
  | fail => exact .nil
  | ok _ hy => exact hy.nodes

section Wrap

variable {ctx ctx' : Context} {A : Subtree → Subtree → Prop} {depth depth' : Nat}

/-- The leaves of corresponding pieces of text correspond. -/
def LeavesAlike (M : Nat → Nat → Prop) (A : Subtree → Subtree → Prop) (ctx ctx' : Context)
    (depth depth' : Nat) : Prop :=
  ∀ bytes o o', M o o' → M (o + bytes.length) (o' + bytes.length) →
    Option.Rel A (operatorLeaf? ctx depth bytes o) (operatorLeaf? ctx' depth' bytes o')

theorem forall₂_child? (hnode : ∀ n n', N n n' → A n.2 n'.2)
    (hleaf : LeavesAlike M A ctx ctx' depth depth') {ps ps' : List Piece}
    (h : List.Forall₂ (Piece.Alike M N) ps ps') :
    List.Forall₂ A (ps.filterMap (Piece.child? ctx depth))
      (ps'.filterMap (Piece.child? ctx' depth')) := by
  induction h with
  | nil => exact .nil
  | cons hp _ ih =>
    cases hp with
    | node hn => exact .cons (hnode _ _ hn) ih
    | @text bytes o o' ho hstop =>
      have hrel := hleaf bytes o o' ho hstop
      rw [List.filterMap_cons, List.filterMap_cons]
      simp only [Piece.child?]
      cases hl : operatorLeaf? ctx depth bytes o with
      | none =>
        rw [hl] at hrel
        cases hl' : operatorLeaf? ctx' depth' bytes o' with
        | none => exact ih
        | some s' => rw [hl'] at hrel; cases hrel
      | some s =>
        rw [hl] at hrel
        cases hl' : operatorLeaf? ctx' depth' bytes o' with
        | none => rw [hl'] at hrel; cases hrel
        | some s' =>
          rw [hl'] at hrel
          cases hrel with
          | some hs => exact .cons hs ih

/-- Nodes around corresponding yields correspond. -/
theorem Yield.Alike.wrap {info info' : NodeInfo} (hnode : ∀ n n', N n n' → A n.2 n'.2)
    (hleaf : LeavesAlike M A ctx ctx' info.depth info'.depth)
    (hwrap : ∀ cs cs', List.Forall₂ A cs cs' → A (.node info cs) (.node info' cs'))
    (hvalue : ∀ bytes, A (.node { info with value := .text bytes } [])
      (.node { info' with value := .text bytes } []))
    {y y' : Yield} (h : y.Alike M N y') : A (y.wrap ctx info) (y'.wrap ctx' info') := by
  cases h with
  | one hp =>
    cases hp with
    | node hn => exact hwrap _ _ (.cons (hnode _ _ hn) .nil)
    | text _ _ => exact hvalue _
  | many hps => exact hwrap _ _ (forall₂_child? hnode hleaf hps)

end Wrap

end Parse

end Packrat
