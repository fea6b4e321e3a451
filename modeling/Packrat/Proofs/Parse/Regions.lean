import Packrat.Proofs.Parse.Transparency
import Packrat.Proofs.Parse.TwoRuns
import Mathlib.Tactic.IntervalCases

/-!
What a region depends on.

The reads of a node and of everything below it are all that a match of its rule depends on.  Matched
anew in another text, at a place that stands `d` places further on, the rule gives the same tree,
moved by `d`, whenever the other text shows the same at every place that the tree has examined.  The
openings of comments have to fit into the window in which they are looked for (`Comment.FitsWindow`): of
a longer one not everything that is compared counts as examined.
-/

namespace Packrat

namespace Parse

variable {ctx : Context} {o : Nat}

/-- Everything that is examined for the node of a rule is examined by the node and those below it. -/
theorem Derives.examined_node {id stop : Nat} {rule : Rule} {key : Key} {tree : Subtree}
    {tr : List Event} (h : Derives ctx (.rule id) o (.ok stop (.one (.node key tree))) tr)
    (hrule : ctx.grammar.rules[id]? = some rule) (hfragment : rule.isFragment = false) :
    ∀ ev ∈ tr, ∀ x, ev.Examined x → tree.Examined x := by
  generalize hout : Outcome.ok stop (.one (.node key tree)) = res at h
  cases h with
  | @rule _ rule' _ out tr _ entry hrule' hd hentry hres =>
    cases hrule.symm.trans hrule'
    cases out with
    | fail =>
      rw [hentry] at hres
      cases hout.trans hres
    | ok stop' y =>
      rw [ruleResult_node hfragment] at hentry
      subst hentry
      cases hout.trans hres
      intro ev hev x hx
      cases List.mem_singleton.1 hev
      rcases hx with hx | ⟨n, hn, hx⟩
      · exact absurd hx Footprint.not_mem_empty
      · rw [Entry.flat_outcome] at hn
        obtain ⟨m, hm, rfl⟩ := mem_nodes_flat.1 hn
        rw [Outcome.nodes_one] at hm
        cases Array.mem_singleton.1 hm
        exact hx

end Parse

namespace Parser

open Parse

theorem nodeAt?_eq_some {stop : Nat} {out : Outcome} {tree : Subtree} :
    nodeAt? stop out = some tree ↔ ∃ key, out = .ok stop (.one (.node key tree)) := by
  constructor
  · intro h
    unfold nodeAt? at h
    split at h
    · next key tree' =>
      split at h
      · next heq =>
        subst heq
        cases h
        exact ⟨key, rfl⟩
      · cases h
    · cases h
  · rintro ⟨key, rfl⟩
    simp [nodeAt?]

/-- A region gives a tree if the rule matches up to the end that is asked for. -/
theorem region_eq_some {p : Parser} {source : Source} {id o stop depth : Nat} {log : Log}
    {tree : Subtree} :
    (p.region source id o stop depth log).1 = .ok (some tree) ↔
      ∃ key s, invoke ⟨p.grammar, source⟩ (p.maxDepth - (depth - 1)) (depth - 1) id o {}
        = .ok (.ok stop (.one (.node key tree))) s := by
  unfold region
  simp only [EStateM.run]
  cases hrun : invoke ⟨p.grammar, source⟩ (p.maxDepth - (depth - 1)) (depth - 1) id o {} with
  | error e s =>
    constructor
    · intro h; cases h
    · rintro ⟨key, s', h⟩; cases h
  | ok out s =>
    cases hnode : nodeAt? stop out with
    | none =>
      constructor
      · intro h
        simp only [hnode] at h
        cases h
      · rintro ⟨key, s', h⟩
        cases h
        rw [nodeAt?_eq_some.2 ⟨key, rfl⟩] at hnode
        cases hnode
    | some tree' =>
      obtain ⟨key, rfl⟩ := nodeAt?_eq_some.1 hnode
      constructor
      · intro h
        simp only [hnode] at h
        cases h
        exact ⟨key, s, rfl⟩
      · rintro ⟨key', s', h⟩
        cases h
        simp only [hnode]
        rfl

/-- **The recorded reads of a region are all that it depends on**, as long as the openings of the comments
fit into the window in which they are looked for: on a text that agrees on them, moved along, the region
gives the same tree, moved along. -/
theorem region_moved (p : Parser) (hfits : ∀ c ∈ p.grammar.comments, c.FitsWindow) {d : Int}
    {source source' : Source} {id o o' stop stop' depth : Nat} {rule : Rule} {tree : Subtree}
    (log log' : Log) (hrule : p.grammar.rules[id]? = some rule) (hfragment : rule.isFragment = false)
    (ho : o ≤ source.size) (ho' : o' ≤ source'.size) (hmoved : (o' : Int) = o + d)
    (hstop : (stop' : Int) = stop + d)
    (hrun : (p.region source id o stop depth log).1 = .ok (some tree))
    (hagree : ∀ x x' : Nat, tree.Examined x → (x' : Int) = x + d →
      source'.text.shows x' = source.text.shows x) :
    ∃ tree', (p.region source' id o' stop' depth log').1 = .ok (some tree') ∧ tree.MovedBy d tree' := by
  obtain ⟨key, s, hinvoke⟩ := region_eq_some.1 hrun
  have hid : id < p.grammar.rules.size := by
    by_contra hlt
    rw [Array.getElem?_eq_none (by omega)] at hrule
    cases hrule
  have htracks := invoke_tracks ⟨p.grammar, source⟩ (p.maxDepth - (depth - 1)) (depth - 1) id o hid ho
  obtain ⟨-, tr, hd, -⟩ := (htracks {} (sound_empty _)).of_run hinvoke
  have hsafe : Safe ⟨p.grammar, source⟩ source' d (.rule id) o := by
    refine .intro hd fun ev hev x hx x' hx' => hagree x x' ?_ hx'
    exact (Subtree.examined_flat tree x).1 (hd.examined_node hrule hfragment ev hev x hx)
  have hctx : Context.Fits ⟨p.grammar, source⟩ := hfits
  obtain ⟨out', s', hinvoke', hout, -⟩ := invoke_lockstep hctx _ _ id o o' hid ho
    (⟨hmoved, ho'⟩ : PlaceMovedBy d source' o o') {} {} (sound_empty _) State.movedBy_empty hsafe _ _
    hinvoke
  cases hout with
  | @ok _ stop₂ _ _ hstop₂ hy =>
    cases hy with
    | one hp =>
      cases hp with
      | @node _ key' _ tree' hn =>
        obtain rfl : stop₂ = stop' := (hstop₂.1.eq_iff hstop).2 rfl
        exact ⟨tree', region_eq_some.2 ⟨key', s', hinvoke'⟩, hn.tree⟩

/-- The grammar `s <- '+'`, with the usual comments. -/
def plusGrammar : Grammar where
  name := Bytes.ascii "plus"
  rules := #[{ name := Bytes.ascii "s", nodeType := Bytes.ascii "s", isFragment := false,
               description := [], pattern := .atom none (.literal (Bytes.ascii "+")) }]

def plusParser : Parser where
  grammar := plusGrammar
  maxDepth := 1
  leftRecursive_eq := by decide +kernel

/-- A sign behind a blank gives the same region at the beginning of a text and further on in another
one. -/
theorem region_plus_moved :
    ∃ tree tree', (plusParser.region (.ofBytes (Bytes.ascii " +")) 0 0 2 1 #[]).1 = .ok (some tree)
      ∧ (plusParser.region (.ofBytes (Bytes.ascii "-- +")) 0 2 4 1 #[]).1 = .ok (some tree')
      ∧ tree.MovedBy 2 tree' := by
  have hok : ((plusParser.region (.ofBytes (Bytes.ascii " +")) 0 0 2 1 #[]).1.toOption.join).isSome
      = true := by cbv
  have hfits : ∀ c ∈ plusParser.grammar.comments, c.FitsWindow := by
    intro c hc r hr
    rcases List.mem_cons.1 hc with rfl | hc
    · cases hr
    · cases List.mem_singleton.1 hc
      cases hr
  have hagree : ∀ x x' : Nat, (x' : Int) = x + 2 → (Source.ofBytes (Bytes.ascii "-- +")).text.shows x'
      = (Source.ofBytes (Bytes.ascii " +")).text.shows x := by
    intro x x' hx
    obtain rfl : x' = x + 2 := by omega
    rcases Nat.lt_or_ge x 3 with hlt | hge
    · interval_cases x <;> rfl
    · have h₁ : ¬x + 2 ≤ (Source.ofBytes (Bytes.ascii "-- +")).text.size := by
        show ¬x + 2 ≤ 4
        omega
      have h₂ : ¬x ≤ (Source.ofBytes (Bytes.ascii " +")).text.size := by
        show ¬x ≤ 2
        omega
      unfold Text.shows
      rw [if_neg h₁, if_neg h₂]
  cases hrun : (plusParser.region (.ofBytes (Bytes.ascii " +")) 0 0 2 1 #[]).1 with
  | error e => rw [hrun] at hok; cases hok
  | ok found =>
    cases found with
    | none => rw [hrun] at hok; cases hok
    | some tree =>
      obtain ⟨tree', hrun', hmoved⟩ := region_moved plusParser hfits (d := 2) #[] #[]
        (by rfl : plusParser.grammar.rules[0]? = some _) rfl (Nat.zero_le _)
        (by decide : 2 ≤ (Source.ofBytes (Bytes.ascii "-- +")).size) rfl rfl hrun
        (fun x x' _ hx => hagree x x' hx)
      exact ⟨tree, tree', rfl, hrun', hmoved⟩

end Parser

end Packrat
