import Packrat.Proofs.Parse.Walk
import Mathlib.Data.List.Perm.Subperm
import Mathlib.Data.List.ProdSigma

/-!
Rules and tokens are matched once at an offset.

The matcher looks an outcome up before it starts a body, and stores it when the body has ended.  In
between the body may ask for the same rule at the same offset again: the check for left recursion does
not look behind a part that happens to match nothing.  If so, the memory does not help, and there is
nothing in the matcher itself that would keep the outcome from being stored twice.  But such a match has
no end: in the walk through the calls of a match that ends, no call is met while it is in progress
(`Calls.not_mem_inner`).

A body that is started is therefore neither in progress nor stored (`Once`); a walk keeps this and leaves
in progress what was (`walkAll_once`).

Main statement (`Parser.parseWith_once`): a parse that ends with a tree or with a mishap stores no key
twice, starts no body that is in progress, and starts as many bodies at most as there are keys.
-/

namespace Packrat

namespace Parse

open Call (partsAll walkAll partsAll_sublist inner_sublist mem_parts_self)

/-! ### Keys in a journal -/

namespace Act

def started? : Act → Option Key
  | started key => some key
  | tried _ _ | stored _ => none

def stored? : Act → Option Key
  | stored key => some key
  | started _ | tried _ _ => none

end Act

/-- The keys whose bodies are started, in order. -/
def startedKeys (j : List Act) : List Key := j.filterMap Act.started?

/-- The keys whose outcomes are stored, in order. -/
def storedKeys (j : List Act) : List Key := j.filterMap Act.stored?

/-- The body of a key has been started, and its outcome is not stored yet. -/
def InProgress (j : List Act) (key : Key) : Prop := .started key ∈ j ∧ .stored key ∉ j

/-- No body is started twice, and no outcome is stored twice. -/
structure Once (j : List Act) : Prop where
  started : (startedKeys j).Nodup
  stored : (storedKeys j).Nodup

variable {j before after : List Act} {key k : Key} {name : Bytes} {o : Nat}

theorem mem_startedKeys : key ∈ startedKeys j ↔ .started key ∈ j := by
  rw [startedKeys, List.mem_filterMap]
  constructor
  · rintro ⟨a, ha, hkey⟩
    cases a <;> cases hkey
    exact ha
  · exact fun h => ⟨_, h, rfl⟩

theorem mem_storedKeys : key ∈ storedKeys j ↔ .stored key ∈ j := by
  rw [storedKeys, List.mem_filterMap]
  constructor
  · rintro ⟨a, ha, hkey⟩
    cases a <;> cases hkey
    exact ha
  · exact fun h => ⟨_, h, rfl⟩

/-- One more entry in a journal, whose key is new if it counts. -/
theorem nodup_filterMap_concat {f : Act → Option Key} {a : Act} (h : (j.filterMap f).Nodup)
    (hnew : ∀ key, f a = some key → key ∉ j.filterMap f) : ((j ++ [a]).filterMap f).Nodup := by
  rw [List.filterMap_append]
  cases ha : f a with
  | none => simpa [ha] using h
  | some key =>
    rw [List.filterMap_cons, ha, List.filterMap_nil, ← List.concat_eq_append]
    exact h.concat (hnew key ha)

namespace Once

theorem nil : Once [] := ⟨List.nodup_nil, List.nodup_nil⟩

theorem tried (h : Once j) (name : Bytes) (o : Nat) : Once (j ++ [.tried name o]) :=
  ⟨nodup_filterMap_concat h.started nofun, nodup_filterMap_concat h.stored nofun⟩

/-- A body is started that was not started before. -/
theorem start (h : Once j) (hnew : .started key ∉ j) : Once (j ++ [.started key]) := by
  refine ⟨nodup_filterMap_concat h.started ?_, nodup_filterMap_concat h.stored nofun⟩
  rintro _ ⟨⟩
  exact mt mem_startedKeys.1 hnew

/-- An outcome is stored that was not stored before. -/
theorem store (h : Once j) (hnew : .stored key ∉ j) : Once (j ++ [.stored key]) := by
  refine ⟨nodup_filterMap_concat h.started nofun, nodup_filterMap_concat h.stored ?_⟩
  rintro _ ⟨⟩
  exact mt mem_storedKeys.1 hnew

/-- A body that is started was not in progress. -/
theorem not_inProgress (h : Once (before ++ .started key :: after)) : ¬InProgress before key := by
  rintro ⟨hmem, -⟩
  have hnodup := h.started
  rw [startedKeys, List.filterMap_append] at hnodup
  exact (List.disjoint_of_nodup_append hnodup) (mem_startedKeys.2 hmem) List.mem_cons_self

end Once

/-! ### Walks start and store once -/

/-- No call is met inside of itself. -/
def Acyclic (ps : List Call) : Prop :=
  ∀ name start key inner, .body name start key inner ∈ ps → ∀ c ∈ partsAll inner, c.key? ≠ some key

/-- None of the calls is in progress. -/
def Idle (j : List Act) (ps : List Call) : Prop :=
  ∀ c ∈ ps, ∀ key, c.key? = some key → ¬InProgress j key

theorem Acyclic.mono {ps ps' : List Call} (h : Acyclic ps) (hsub : ps' ⊆ ps) : Acyclic ps' :=
  fun name start key inner hmem => h name start key inner (hsub hmem)

theorem Idle.mono {ps ps' : List Call} (h : Idle j ps) (hsub : ps' ⊆ ps) : Idle j ps' :=
  fun c hc => h c (hsub hc)

theorem inProgress_start (hstored : .stored key ∉ j) :
    InProgress (j ++ [.started key, .tried name o]) k ↔ InProgress j k ∨ k = key := by
  by_cases hk : k = key
  · subst hk
    simp [InProgress, hstored]
  · simp [InProgress, hk]

theorem inProgress_store : InProgress (j ++ [.stored key]) k ↔ InProgress j k ∧ k ≠ key := by
  simp [InProgress, and_assoc]

theorem inProgress_tried : InProgress (j ++ [.tried name o]) k ↔ InProgress j k := by
  simp [InProgress]

mutual

/-- A walk through a call that is not in progress starts and stores once, and ends what it has begun. -/
theorem walk_once : ∀ (c : Call) {j : List Act}, Acyclic c.parts → Idle j c.parts → Once j →
    Once (c.walk j) ∧ ∀ k, InProgress (c.walk j) k ↔ InProgress j k
  | .unknown name o, j, _, _, h => by
    rw [Call.walk]
    exact ⟨h.tried name o, fun k => inProgress_tried⟩
  | .body name start key inner, j, hacyclic, hidle, h => by
    have hsub : partsAll inner ⊆ (Call.body name start key inner).parts :=
      (inner_sublist name start key inner).subset
    rw [Call.walk]
    split
    · exact ⟨h, fun _ => .rfl⟩
    · next hstored =>
      have hstarted : Act.started key ∉ j := fun hmem =>
        hidle _ (mem_parts_self _) key rfl ⟨hmem, hstored⟩
      -- from here on the call is in progress, and it is not met inside of itself
      have hidle₁ : Idle (j ++ [.started key, .tried name start]) (partsAll inner) := by
        intro c hc k hk hprogress
        rcases (inProgress_start hstored).1 hprogress with hprogress | rfl
        · exact hidle.mono hsub c hc k hk hprogress
        · exact hacyclic _ _ _ _ (mem_parts_self _) c hc hk
      have h₁ : Once (j ++ [.started key, .tried name start]) := by
        rw [← List.singleton_append, ← List.append_assoc]
        exact (h.start hstarted).tried name start
      obtain ⟨h₂, hprogress₂⟩ := walkAll_once inner (hacyclic.mono hsub) hidle₁ h₁
      generalize walkAll inner (j ++ [.started key, .tried name start]) = j₂ at h₂ hprogress₂ ⊢
      have hopen : InProgress j₂ key := (hprogress₂ key).2 ((inProgress_start hstored).2 (.inr rfl))
      -- storing the outcome ends what was begun here, and nothing else
      refine ⟨h₂.store hopen.2, fun k => ?_⟩
      rw [inProgress_store, hprogress₂, inProgress_start hstored]
      constructor
      · rintro ⟨hk | hk, hne⟩
        · exact hk
        · exact absurd hk hne
      · exact fun hk => ⟨.inl hk, fun heq => hstarted (heq ▸ hk.1)⟩

theorem walkAll_once : ∀ (cs : List Call) {j : List Act}, Acyclic (partsAll cs) →
    Idle j (partsAll cs) → Once j →
    Once (walkAll cs j) ∧ ∀ k, InProgress (walkAll cs j) k ↔ InProgress j k
  | [], _, _, _, h => ⟨h, fun _ => .rfl⟩
  | c :: cs, j, hacyclic, hidle, h => by
    obtain ⟨h₁, hprogress₁⟩ := walk_once c (hacyclic.mono (List.subset_append_left _ _))
      (hidle.mono (List.subset_append_left _ _)) h
    have hidle₁ : Idle (c.walk j) (partsAll cs) := fun c' hc' k hk hprogress =>
      hidle c' (List.mem_append_right _ hc') k hk ((hprogress₁ k).1 hprogress)
    obtain ⟨h₂, hprogress₂⟩ := walkAll_once cs (hacyclic.mono (List.subset_append_right _ _)) hidle₁ h₁
    exact ⟨h₂, fun k => (hprogress₂ k).trans (hprogress₁ k)⟩

end

/-! ### How many bodies are started -/

mutual

/-- A walk starts bodies of calls only. -/
theorem started_mem_walk : ∀ (c : Call) {j : List Act} {key : Key}, .started key ∈ c.walk j →
    .started key ∈ j ∨ ∃ c' ∈ c.parts, c'.key? = some key
  | .unknown name o, j, key, h => by
    rw [Call.walk, List.mem_append, List.mem_singleton] at h
    exact .inl (h.resolve_right Act.noConfusion)
  | .body name start key' inner, j, key, h => by
    rw [Call.walk] at h
    split at h
    · exact .inl h
    · rw [List.mem_append, List.mem_singleton] at h
      rcases started_mem_walkAll inner (h.resolve_right Act.noConfusion) with h | ⟨c, hc, hkey⟩
      · rw [List.mem_append, List.mem_pair] at h
        rcases h with h | h | h
        · exact .inl h
        · cases h
          exact .inr ⟨_, mem_parts_self _, rfl⟩
        · cases h
      · exact .inr ⟨c, (inner_sublist name start key' inner).subset hc, hkey⟩

theorem started_mem_walkAll : ∀ (cs : List Call) {j : List Act} {key : Key},
    .started key ∈ walkAll cs j → .started key ∈ j ∨ ∃ c ∈ partsAll cs, c.key? = some key
  | [], _, _, h => .inl h
  | c :: cs, j, key, h => by
    rcases started_mem_walkAll cs h with h | ⟨c', hc', hkey⟩
    · rcases started_mem_walk c h with h | ⟨c', hc', hkey⟩
      · exact .inl h
      · exact .inr ⟨c', List.mem_append_left _ hc', hkey⟩
    · exact .inr ⟨c', List.mem_append_right _ hc', hkey⟩

end

theorem tokenIndex_lt (kind : TokenKind) : kind.index < 7 := by
  cases kind <;> decide

/-- There is a number for every rule and for each of the seven kinds of tokens. -/
theorem Goal.symbol?_lt {ctx : Context} {g : Goal} {symbol : Nat} (h : g.symbol? ctx = some symbol) :
    symbol < ctx.grammar.rules.size + 7 := by
  cases g with
  | rule id =>
    rw [Goal.symbol?, Option.ite_none_right_eq_some, Option.some.injEq] at h
    omega
  | token kind =>
    cases h
    exact Nat.add_lt_add_left (tokenIndex_lt kind) _
  | _ => cases h

/-- Keys below two bounds that are all different. -/
theorem length_le_of_nodup {keys : List Key} (h : keys.Nodup) {m n : Nat}
    (hlt : ∀ key ∈ keys, key.symbol < m ∧ key.offset < n) : keys.length ≤ m * n := by
  have hinj : Function.Injective fun key : Key => (key.symbol, key.offset) := by
    rintro ⟨s, o⟩ ⟨s', o'⟩ heq
    cases heq
    rfl
  have hsub : keys.map (fun key => (key.symbol, key.offset)) ⊆ List.range m ×ˢ List.range n := by
    intro p hp
    obtain ⟨key, hkey, rfl⟩ := List.mem_map.1 hp
    exact List.mem_product.2 ⟨List.mem_range.2 (hlt key hkey).1, List.mem_range.2 (hlt key hkey).2⟩
  have hle := ((h.map hinj).subperm hsub).length_le
  rwa [List.length_map, List.length_product, List.length_range, List.length_range] at hle

/-- The memory holds as many outcomes as have been stored. -/
theorem Recorded.size_memo {s : State} (hr : Recorded j s) (h : Once j) :
    s.memo.size = (storedKeys j).length := by
  rw [← Std.HashMap.length_keys]
  refine ((List.perm_ext_iff_of_nodup Std.HashMap.nodup_keys h.stored).2 fun key => ?_).length_eq
  rw [Std.HashMap.mem_keys, hr.stored, mem_storedKeys]

/-- In the walk through the calls of a goal inside the text every key is started and stored once. -/
theorem Calls.walkAll_once {ctx : Context} {g : Goal} {cs : List Call} (h : Calls ctx g o cs)
    (ho : o ≤ ctx.source.size) : Once (walkAll cs [])
      ∧ (startedKeys (walkAll cs [])).length ≤ (ctx.grammar.rules.size + 7) * (ctx.source.size + 1) := by
  have hacyclic : Acyclic (partsAll cs) := fun _ _ _ _ hmem _ hc => h.not_mem_inner ho hmem hc
  have hidle : Idle [] (partsAll cs) := fun _ _ _ _ hprogress => nomatch hprogress.1
  obtain ⟨honce, -⟩ := Parse.walkAll_once cs hacyclic hidle .nil
  refine ⟨honce, length_le_of_nodup honce.started fun key hkey => ?_⟩
  rcases started_mem_walkAll cs (mem_startedKeys.1 hkey) with hmem | ⟨c, hc, hkey⟩
  · cases hmem
  · obtain ⟨hoffset, g', hg', -⟩ := h.follows ho c hc key hkey
    exact ⟨Goal.symbol?_lt hg', Nat.lt_succ_of_le hoffset⟩

end Parse

/-! ### Parses -/

namespace Parser

open Parse

/-- The journal of a parse; there is none if the parse is broken off. -/
def journal (p : Parser) (name : Bytes) (source : Source) : List Act :=
  match Journaled.document ⟨p.grammar, source⟩ p.maxDepth name [] {} with
  | .ok (_, j) _ => j
  | .error _ _ => []

/-- A parse has ended with a tree or with a mishap. -/
def Concluded : Except ParseError Tree → Prop
  | .ok _ | .error (.unexpected _) | .error (.trailing _) => True
  | .error (.exhausted _ _ _) | .error (.undefinedStart _) | .error .beyond => False

/-- A parse that is not broken off has a verdict on its document. -/
theorem document_of_concluded {p : Parser} {name : Bytes} {source : Source} {log : Log}
    (h : Concluded (p.parseWith name source log).1) :
    ∃ verdict s, document ⟨p.grammar, source⟩ p.maxDepth name {} = .ok verdict s := by
  by_cases hstart : p.grammar.declares name = true ∨ Grammar.isToken name = true
  · rw [parseWith_fst p source log hstart] at h
    cases hdoc : document ⟨p.grammar, source⟩ p.maxDepth name {} with
    | ok verdict s => exact ⟨verdict, s, rfl⟩
    | error e s =>
      rw [hdoc] at h
      cases e <;> cases h
  · rw [parseWith_undefined p source log hstart] at h
    cases h

/-- The journal of a parse that has a verdict is that of the run that gives it, and of a walk through the
calls of its start. -/
theorem journal_of_document {p : Parser} {name : Bytes} {source : Source} {verdict : Verdict} {s : State}
    (hdoc : document ⟨p.grammar, source⟩ p.maxDepth name {} = .ok verdict s) :
    Journaled.document ⟨p.grammar, source⟩ p.maxDepth name [] {}
        = .ok (verdict, p.journal name source) s
      ∧ Recorded (p.journal name source) s
      ∧ ∃ cs, Calls ⟨p.grammar, source⟩ (.name name) 0 cs ∧ p.journal name source = Call.walkAll cs [] := by
  obtain ⟨j, hrun⟩ := (Journaled.document_erases ⟨p.grammar, source⟩ p.maxDepth name).exists_run hdoc []
  obtain ⟨⟨hr, cs, hcs, hj⟩, -⟩ :=
    (Journaled.document_walk ⟨p.grammar, source⟩ p.maxDepth name).of_run hrun
  obtain rfl : p.journal name source = j := by rw [journal, hrun]
  exact ⟨hrun, hr, cs, hcs, hj⟩

/-- **Outcomes are stored once.** In the journal of a parse that ends with a tree or with a mishap,
whatever it starts with, no key is stored twice, no body is started that is in progress, and there are no
more bodies started than there are rules and kinds of tokens, times offsets in the text.  The journal is
that of the run that gives the verdict on the document, and there are as many outcomes in the memory in
the end as were stored. -/
theorem parseWith_once (p : Parser) (name : Bytes) (source : Source) (log : Log)
    (h : Concluded (p.parseWith name source log).1) :
    (storedKeys (p.journal name source)).Nodup
      ∧ (∀ before key after, p.journal name source = before ++ .started key :: after →
          ¬InProgress before key)
      ∧ (startedKeys (p.journal name source)).length
          ≤ (p.grammar.rules.size + 7) * (source.size + 1)
      ∧ ∃ verdict s, document ⟨p.grammar, source⟩ p.maxDepth name {} = .ok verdict s
        ∧ Journaled.document ⟨p.grammar, source⟩ p.maxDepth name [] {}
            = .ok (verdict, p.journal name source) s
        ∧ s.memo.size = (storedKeys (p.journal name source)).length := by
  obtain ⟨verdict, s, hdoc⟩ := document_of_concluded h
  obtain ⟨hrun, hr, cs, hcs, hj⟩ := journal_of_document hdoc
  obtain ⟨honce, hlength⟩ := hcs.walkAll_once (Nat.zero_le _)
  rw [← hj] at honce hlength
  refine ⟨honce.stored, fun before key after heq => ?_, hlength, verdict, s, hdoc, hrun,
    hr.size_memo honce⟩
  rw [heq] at honce
  exact honce.not_inProgress

/-- The second alternative finds `a` in the memory: of 27 keys two are started and stored. -/
theorem journal_twice_once :
    Concluded (twiceParser.parseWith twiceGrammar.start (.ofBytes (Bytes.ascii "+*")) #[]).1
      ∧ storedKeys (twiceParser.journal twiceGrammar.start (.ofBytes (Bytes.ascii "+*")))
          = [⟨1, 0⟩, ⟨0, 0⟩]
      ∧ (storedKeys (twiceParser.journal twiceGrammar.start (.ofBytes (Bytes.ascii "+*")))).Nodup
      ∧ (startedKeys (twiceParser.journal twiceGrammar.start (.ofBytes (Bytes.ascii "+*")))).length
          ≤ 27 := by
  have hend : Concluded
      (twiceParser.parseWith twiceGrammar.start (.ofBytes (Bytes.ascii "+*")) #[]).1 := by
    cases hparse : (twiceParser.parseWith twiceGrammar.start (.ofBytes (Bytes.ascii "+*")) #[]).1 with
    | ok tree => trivial
    | error e =>
      have hok := parse_twice_isOk
      rw [show twiceParser.parse = twiceParser.parseWith twiceGrammar.start from rfl, hparse] at hok
      cases hok
  obtain ⟨hstored, -, hlength, -⟩ := parseWith_once _ _ _ _ hend
  exact ⟨hend, by cbv, hstored, hlength⟩

end Parser

end Packrat
