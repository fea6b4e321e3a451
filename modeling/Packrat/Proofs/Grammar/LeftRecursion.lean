import Packrat.Parse.Parser
import Packrat.Proofs.Grammar.Texts
import Mathlib.Data.List.Nodup
import Mathlib.Logic.Relation

/-!
Left recursion.

A name leads to those that the rule declared under it may invoke before it consumes anything
(`Grammar.Leads`).  A name without a rule leads nowhere, so a chain of such steps ends there; names of
tokens are no exception.

The search for a goal keeps the names it has followed and those that are still pending.  Whatever it has
followed leads only to names that it has followed or that are pending (`Searched`), so once nothing is
pending the goal cannot be reached.  It looks at every reference of a rule once at most, which is why
the number of names that it may look at is no limit (`length_add_unfollowed_le`): `leadsTo_iff`.

Main statement (`Grammar.leftRecursive_exact`): the left-recursive rules are those that reach themselves
in at least one step, and a parser is refused exactly if there are any.
-/

namespace Packrat

namespace Grammar

open Relation (ReflTransGen TransGen)

variable {g : Grammar} {goal name : Bytes} {visited pending : List Bytes} {r : Rule}

/-! ### Names and their rules -/

/-- The rule found under a name has that name and that pattern. -/
theorem exists_of_pattern? {e : Expr} (h : g.pattern? name = some e) :
    ∃ r ∈ g.rules.toList, r.name = name ∧ r.pattern = e := by
  obtain ⟨id, hfind, hid⟩ := Option.bind_eq_some_iff.mp h
  obtain ⟨hlt, hname, -⟩ := Array.findIdx?_eq_some_iff_getElem.mp hfind
  rw [Array.getElem?_eq_getElem hlt, Option.map_some, Option.some.injEq] at hid
  exact ⟨g.rules[id], by simp, beq_iff_eq.mp hname, hid⟩

/-- If no name is declared twice, every rule is found under its name. -/
theorem pattern?_name (hg : g.names.Nodup) (hr : r ∈ g.rules) :
    g.pattern? r.name = some r.pattern := by
  obtain ⟨i, hi, rfl⟩ := Array.mem_iff_getElem.mp hr
  cases hfind : g.find? g.rules[i].name with
  | none => exact absurd (List.mem_map_of_mem (by simp)) (find?_eq_none_iff.mp hfind)
  | some id =>
    obtain ⟨hid, hname, -⟩ := Array.findIdx?_eq_some_iff_getElem.mp hfind
    have hid' : id < g.names.length := by simpa [names] using hid
    have hi' : i < g.names.length := by simpa [names] using hi
    have hname : g.names[id] = g.names[i] := by simpa [names] using hname
    obtain rfl : id = i := (List.Nodup.getElem_inj_iff hg).mp hname
    rw [pattern?, hfind, Option.bind_some, Array.getElem?_eq_getElem hid, Option.map_some]

/-! ### Steps -/

/-- What the rule declared under a name may invoke before it consumes anything. -/
def following (g : Grammar) (name : Bytes) : List Bytes :=
  ((g.pattern? name).map Expr.leading).getD []

/-- One step of a chain of rules that invoke each other before they consume anything. -/
def Leads (g : Grammar) (name next : Bytes) : Prop :=
  ∃ e, g.pattern? name = some e ∧ next ∈ e.leading

theorem leads_iff {next : Bytes} : g.Leads name next ↔ next ∈ g.following name := by
  unfold Leads following
  cases g.pattern? name <;> simp

/-! ### The search -/

theorem leadsTo_cons (g : Grammar) (goal : Bytes) (fuel : Nat) (visited : List Bytes) (name : Bytes)
    (pending : List Bytes) :
    g.leadsTo goal (fuel + 1) visited (name :: pending)
      = if name == goal then true
        else if visited.contains name then g.leadsTo goal fuel visited pending
        else g.leadsTo goal fuel (name :: visited) (g.following name ++ pending) := rfl

/-- A search that succeeds has come from a pending name. -/
theorem reaches_of_leadsTo {fuel : Nat} (h : g.leadsTo goal fuel visited pending = true) :
    ∃ name ∈ pending, ReflTransGen g.Leads name goal := by
  induction fuel generalizing visited pending with
  | zero => cases h
  | succ fuel ih =>
    cases pending with
    | nil => cases h
    | cons name pending =>
      rw [leadsTo_cons] at h
      split at h
      · next hgoal => exact ⟨name, List.mem_cons_self, beq_iff_eq.mp hgoal ▸ .refl⟩
      split at h
      · obtain ⟨n, hn, hreach⟩ := ih h
        exact ⟨n, List.mem_cons_of_mem _ hn, hreach⟩
      · obtain ⟨n, hn, hreach⟩ := ih h
        rcases List.mem_append.mp hn with hn | hn
        · exact ⟨name, List.mem_cons_self, .head (leads_iff.mpr hn) hreach⟩
        · exact ⟨n, List.mem_cons_of_mem _ hn, hreach⟩

/-- What a search has followed is not the goal, and leads to what it has followed or is pending. -/
structure Searched (g : Grammar) (goal : Bytes) (visited pending : List Bytes) : Prop where
  goal : goal ∉ visited
  closed : ∀ name ∈ visited, ∀ next, g.Leads name next → next ∈ visited ∨ next ∈ pending

namespace Searched

theorem start (g : Grammar) (goal : Bytes) (pending : List Bytes) : g.Searched goal [] pending :=
  ⟨List.not_mem_nil, fun _ h => nomatch h⟩

/-- A name that was followed before is passed by. -/
theorem skip (h : g.Searched goal visited (name :: pending)) (hname : name ∈ visited) :
    g.Searched goal visited pending where
  goal := h.goal
  closed n hn next hnext := by
    rcases h.closed n hn next hnext with hmem | hmem
    · exact .inl hmem
    rcases List.mem_cons.mp hmem with rfl | hmem
    · exact .inl hname
    · exact .inr hmem

/-- A new name is followed. -/
theorem follow (h : g.Searched goal visited (name :: pending)) (hname : name ≠ goal) :
    g.Searched goal (name :: visited) (g.following name ++ pending) where
  goal hmem := (List.mem_cons.mp hmem).elim (fun heq => hname heq.symm) h.goal
  closed n hn next hnext := by
    rcases List.mem_cons.mp hn with rfl | hn
    · exact .inr (List.mem_append_left _ (leads_iff.mp hnext))
    rcases h.closed n hn next hnext with hmem | hmem
    · exact .inl (List.mem_cons_of_mem _ hmem)
    rcases List.mem_cons.mp hmem with rfl | hmem
    · exact .inl List.mem_cons_self
    · exact .inr (List.mem_append_right _ hmem)

/-- Once nothing is pending, the goal is out of reach. -/
theorem not_reaches (h : g.Searched goal visited []) (hname : name ∈ visited) :
    ¬ ReflTransGen g.Leads name goal := by
  intro hreach
  induction hreach using ReflTransGen.head_induction_on with
  | refl => exact h.goal hname
  | head hstep _ ih => exact ih ((h.closed _ hname _ hstep).resolve_right List.not_mem_nil)

end Searched

/-! ### How long a search takes -/

/-- The number of references that lead on from rules whose names have not been followed. -/
def unfollowed (visited : List Bytes) : List Rule → Nat
  | [] => 0
  | r :: rules => (if r.name ∈ visited then 0 else r.pattern.leading.length) + unfollowed visited rules

theorem unfollowed_middle (visited : List Bytes) (before behind : List Rule) (r : Rule) :
    unfollowed visited (before ++ r :: behind) = unfollowed visited before
      + ((if r.name ∈ visited then 0 else r.pattern.leading.length) + unfollowed visited behind) := by
  induction before with
  | nil => rw [List.nil_append, unfollowed, unfollowed, Nat.zero_add]
  | cons r' before ih => rw [List.cons_append, unfollowed, unfollowed, ih, Nat.add_assoc]

theorem unfollowed_cons_le (name : Bytes) (visited : List Bytes) (rules : List Rule) :
    unfollowed (name :: visited) rules ≤ unfollowed visited rules := by
  induction rules with
  | nil => exact Nat.le_refl 0
  | cons r rules ih =>
    refine Nat.add_le_add ?_ ih
    split
    · exact Nat.zero_le _
    · next hnot => rw [if_neg fun hmem => hnot (List.mem_cons_of_mem _ hmem)]

/-- Before anything is followed, no rule has more references than there are. -/
theorem length_le_unfollowed {rules : List Rule} (hr : r ∈ rules) :
    r.pattern.leading.length ≤ unfollowed [] rules := by
  obtain ⟨before, behind, rfl⟩ := List.append_of_mem hr
  rw [unfollowed_middle, if_neg List.not_mem_nil]
  omega

theorem foldl_length_leading (rules : List Rule) (n : Nat) :
    rules.foldl (fun n r => n + r.pattern.leading.length) n = n + unfollowed [] rules := by
  induction rules generalizing n with
  | nil => rfl
  | cons r rules ih => rw [List.foldl_cons, ih, unfollowed, if_neg List.not_mem_nil, Nat.add_assoc]

theorem leadingCount_eq (g : Grammar) : g.leadingCount = unfollowed [] g.rules.toList := by
  rw [leadingCount, foldl_length_leading, Nat.zero_add]

/-- What a name leads to is not left over once it has been followed. -/
theorem length_add_unfollowed_le (g : Grammar) (hname : name ∉ visited) :
    (g.following name).length + unfollowed (name :: visited) g.rules.toList
      ≤ unfollowed visited g.rules.toList := by
  cases hpattern : g.pattern? name with
  | none =>
    rw [following, hpattern, Option.map_none, Option.getD_none, List.length_nil, Nat.zero_add]
    exact unfollowed_cons_le name visited _
  | some e =>
    obtain ⟨r, hr, rfl, rfl⟩ := exists_of_pattern? hpattern
    obtain ⟨before, behind, hrules⟩ := List.append_of_mem hr
    have hbefore := unfollowed_cons_le r.name visited before
    have hbehind := unfollowed_cons_le r.name visited behind
    rw [following, hpattern, Option.map_some, Option.getD_some, hrules, unfollowed_middle,
      unfollowed_middle, if_pos List.mem_cons_self, if_neg hname]
    omega

/-- A search succeeds if it can: it has reached everything by the time its fuel is spent. -/
theorem leadsTo_of_reaches {fuel : Nat} (h : g.Searched goal visited pending)
    (hfuel : pending.length + unfollowed visited g.rules.toList < fuel) (hname : name ∈ visited ++ pending)
    (hreach : ReflTransGen g.Leads name goal) : g.leadsTo goal fuel visited pending = true := by
  induction fuel generalizing visited pending with
  | zero => omega
  | succ fuel ih =>
    cases pending with
    | nil =>
      rw [List.append_nil] at hname
      exact absurd hreach (h.not_reaches hname)
    | cons next pending =>
      rw [List.length_cons] at hfuel
      rw [leadsTo_cons]
      split
      · rfl
      next hgoal =>
      split
      · next hseen =>
        have hseen : next ∈ visited := List.contains_iff_mem.mp hseen
        refine ih (h.skip hseen) (by omega) ?_
        rw [List.mem_append, List.mem_cons] at hname
        rw [List.mem_append]
        rcases hname with hname | rfl | hname
        · exact .inl hname
        · exact .inl hseen
        · exact .inr hname
      · next hnew =>
        have hnew : next ∉ visited := fun hmem => hnew (List.contains_iff_mem.mpr hmem)
        have hless := length_add_unfollowed_le g hnew
        refine ih (h.follow fun heq => hgoal (beq_iff_eq.mpr heq)) ?_ ?_
        · rw [List.length_append]
          omega
        · simp only [List.mem_append, List.mem_cons] at hname ⊢
          rcases hname with hname | rfl | hname
          · exact .inl (.inr hname)
          · exact .inl (.inl rfl)
          · exact .inr (.inr hname)

/-- A rule is left-recursive if it may begin with a name from which its own is reached. -/
theorem isLeftRecursive_iff (hr : r ∈ g.rules) :
    g.isLeftRecursive r = true ↔ ∃ name ∈ r.pattern.leading, ReflTransGen g.Leads name r.name := by
  refine ⟨reaches_of_leadsTo, fun ⟨name, hname, hreach⟩ => ?_⟩
  refine leadsTo_of_reaches (.start g r.name _) ?_ hname hreach
  have hlength := length_le_unfollowed (Array.mem_toList_iff.mpr hr)
  rw [leadingCount_eq]
  omega

/-- A name that reaches itself is that of a left-recursive rule, whatever else is declared. -/
theorem mem_leftRecursive_of_cycle (h : TransGen g.Leads name name) : name ∈ g.leftRecursive := by
  obtain ⟨next, ⟨e, hpattern, hnext⟩, hreach⟩ := TransGen.head'_iff.mp h
  obtain ⟨r, hr, rfl, rfl⟩ := exists_of_pattern? hpattern
  have hrec : g.isLeftRecursive r = true :=
    (isLeftRecursive_iff (Array.mem_toList_iff.mp hr)).mpr ⟨next, hnext, hreach⟩
  exact List.mem_map.mpr ⟨r, List.mem_filter.mpr ⟨hr, hrec⟩, rfl⟩

theorem cycle_of_mem_leftRecursive (hg : g.names.Nodup) (h : name ∈ g.leftRecursive) :
    TransGen g.Leads name name := by
  obtain ⟨r, hr, rfl⟩ := List.mem_map.mp h
  obtain ⟨hr, hrec⟩ := List.mem_filter.mp hr
  have hr : r ∈ g.rules := Array.mem_toList_iff.mp hr
  obtain ⟨next, hnext, hreach⟩ := (isLeftRecursive_iff hr).mp hrec
  exact TransGen.head' ⟨_, pattern?_name hg hr, hnext⟩ hreach

theorem leftRecursive_sublist (g : Grammar) : g.leftRecursive.Sublist g.names :=
  List.filter_sublist.map _

/-- A parser is refused with the names of the left-recursive rules, and for no other reason. -/
theorem make_eq_error_iff {maxDepth : Nat} {error : GrammarError} :
    Parser.make g maxDepth = .error error
      ↔ g.leftRecursive ≠ [] ∧ error = .leftRecursive g.name g.leftRecursive := by
  unfold Parser.make
  split
  · next heq => simp [heq]
  · next hne => exact ⟨fun h => ⟨hne, (Except.error.inj h).symm⟩, fun h => congrArg _ h.2.symm⟩

/-- **The left-recursive rules are those that reach themselves.** If no name is declared twice, as in every
grammar that is made by defining rules (`nodup_define`), a name is listed exactly if a chain of at least one
step leads from it back to it.  The list has the order of the rules and no name twice, and a parser is
refused, with this list, exactly if it is not empty. -/
theorem leftRecursive_exact (g : Grammar) (hg : g.names.Nodup) :
    (∀ name, name ∈ g.leftRecursive ↔ TransGen g.Leads name name)
      ∧ g.leftRecursive.Sublist g.names
      ∧ g.leftRecursive.Nodup
      ∧ ∀ maxDepth error, Parser.make g maxDepth = .error error
          ↔ g.leftRecursive ≠ [] ∧ error = .leftRecursive g.name g.leftRecursive :=
  ⟨fun _ => ⟨cycle_of_mem_leftRecursive hg, mem_leftRecursive_of_cycle⟩, leftRecursive_sublist g,
    (leftRecursive_sublist g).nodup hg, fun _ _ => make_eq_error_iff⟩

/-- A circle of two rules, a rule that only leads to it, a rule that consumes before it invokes itself, and
names without a rule: `a <- &b / 'x'`, `b <- (a)* NUMBER`, `c <- a`, `d <- 'x' d / NUMBER / e`. -/
def circleGrammar : Grammar where
  name := Bytes.ascii "circle"
  rules := #[
    .plain (Bytes.ascii "a") (.choice none [
      .apply none .ahead (.atom none (.rule (Bytes.ascii "b"))), .literal (Bytes.ascii "x")]),
    .plain (Bytes.ascii "b") (.seq none [
      .apply none .star (.atom none (.rule (Bytes.ascii "a"))), .atom none (.token .number)]),
    .plain (Bytes.ascii "c") (.atom none (.rule (Bytes.ascii "a"))),
    .plain (Bytes.ascii "d") (.choice none [
      .seq none [.literal (Bytes.ascii "x"), .atom none (.rule (Bytes.ascii "d"))],
      .atom none (.rule (Bytes.ascii "NUMBER")), .atom none (.rule (Bytes.ascii "e"))])]

/-- The rules of the circle are refused, and the one that leads to it does not reach itself. -/
theorem leftRecursive_circle : circleGrammar.names.Nodup
    ∧ circleGrammar.leftRecursive = [Bytes.ascii "a", Bytes.ascii "b"]
    ∧ TransGen circleGrammar.Leads (Bytes.ascii "a") (Bytes.ascii "a")
    ∧ ¬ TransGen circleGrammar.Leads (Bytes.ascii "c") (Bytes.ascii "c")
    ∧ Parser.make circleGrammar 10
        = .error (.leftRecursive (Bytes.ascii "circle") [Bytes.ascii "a", Bytes.ascii "b"]) := by
  have hnames : circleGrammar.names.Nodup := by decide
  have hlist : circleGrammar.leftRecursive = [Bytes.ascii "a", Bytes.ascii "b"] := by decide +kernel
  obtain ⟨hcycle, -, -, hmake⟩ := leftRecursive_exact circleGrammar hnames
  rw [hlist] at hcycle hmake
  exact ⟨hnames, hlist, (hcycle _).mp (by decide), mt (hcycle _).mpr (by decide),
    (hmake 10 _).mpr ⟨by decide, rfl⟩⟩

end Grammar

end Packrat
