import Packrat.Proofs.Document.Texts
import Mathlib.Data.List.Sort
import Mathlib.Data.List.TakeDrop

/-!
Batches of edits.

A batch is applied edit by edit, to a text that changes on the way, but its offsets mean positions in the
text that it starts from.  `Text.replaceAll` says what the batch stands for: at every offset of that text
the new text of the edit that starts there, then the byte unless an edit replaces it.  The order in which
the edits are given does not enter.

Edits come in from the highest offset down.  While the offsets in front of an edit are still as they were,
the edit finds the stretch that it means (`Text.into_replaceAll`), and that is so as long as no edit
starts inside the stretch that another one replaces (`Edit.Apart`).

Main statement (`Document.edits_text`): a batch of edits that are apart replaces all of them at once,
whatever becomes of the tree on the way.  Being disjoint is not enough: an insertion has nothing in common
with a stretch around it, but is applied first and then partly replaced (`Document.edits_nestedBatch`).
-/

namespace Packrat

/-! ### Replacing at once -/

namespace Edit

/-- Whether an edit replaces the byte at an offset. -/
def Covers (e : Edit) (o : Nat) : Prop := e.offset ≤ o ∧ o < e.offset + e.oldLength

instance (e : Edit) (o : Nat) : Decidable (e.Covers o) :=
  inferInstanceAs (Decidable (_ ∧ _))

/-- Whether an edit lies inside a text. -/
def Inside (e : Edit) (t : Text) : Prop := e.offset + e.oldLength ≤ t.size

instance (e : Edit) (t : Text) : Decidable (e.Inside t) :=
  inferInstanceAs (Decidable (_ ≤ _))

/-- Two edits start at different offsets, and one of them ends in front of the other. -/
def Apart (a b : Edit) : Prop :=
  a.offset ≠ b.offset ∧ (a.offset + a.oldLength ≤ b.offset ∨ b.offset + b.oldLength ≤ a.offset)

instance (a b : Edit) : Decidable (a.Apart b) :=
  inferInstanceAs (Decidable (_ ∧ _))

theorem Apart.symm {a b : Edit} (h : a.Apart b) : b.Apart a := ⟨h.1.symm, h.2.symm⟩

/-- An edit that lies inside a text need not be cut to it. -/
theorem clamp_of_inside {e : Edit} {t : Text} (h : e.Inside t) : e.clamp t.size = e := by
  have hle : e.offset + e.oldLength ≤ t.size := h
  simp only [clamp, Nat.min_eq_left (Nat.le_of_add_right_le hle),
    Nat.min_eq_left (Nat.le_sub_of_add_le' hle)]

end Edit

namespace Text

/-- The new texts of the edits that start at an offset. -/
def inserted (es : List Edit) (o : Nat) : Bytes :=
  (es.filter (·.offset = o)).flatMap (·.newText)

/-- The byte at an offset, unless an edit replaces it. -/
def kept (t : Text) (es : List Edit) (o : Nat) : Bytes :=
  if ∃ e ∈ es, e.Covers o then [] else (t[o]?).toList

/-- The text in which everything that the edits replace is replaced at once. -/
def replaceAll (t : Text) (es : List Edit) : Text :=
  ((List.range (t.size + 1)).flatMap fun o => inserted es o ++ t.kept es o).toArray

variable {t : Text} {es : List Edit} {e : Edit} {o : Nat}

/-- What becomes of the offsets of `[start, start + count)`. -/
def replacedWithin (t : Text) (es : List Edit) (start count : Nat) : Bytes :=
  (List.range' start count).flatMap fun o => inserted es o ++ t.kept es o

theorem replacedWithin_add (t : Text) (es : List Edit) (start count more : Nat) :
    t.replacedWithin es start (count + more)
      = t.replacedWithin es start count ++ t.replacedWithin es (start + count) more := by
  rw [replacedWithin, ← List.range'_append_1, List.flatMap_append]
  rfl

theorem toList_replaceAll (t : Text) (es : List Edit) {k : Nat} (hk : k ≤ t.size + 1) :
    (t.replaceAll es).toList
      = t.replacedWithin es 0 k ++ t.replacedWithin es k (t.size + 1 - k) := by
  have hsplit := t.replacedWithin_add es 0 k (t.size + 1 - k)
  rw [Nat.zero_add, Nat.add_sub_of_le hk] at hsplit
  rw [← hsplit, replaceAll, List.range_eq_range']
  rfl

theorem inserted_concat (es : List Edit) (e : Edit) (o : Nat) :
    inserted (es ++ [e]) o = inserted es o ++ if e.offset = o then e.newText else [] := by
  unfold inserted
  rw [List.filter_append, List.flatMap_append]
  by_cases h : e.offset = o <;> simp [h]

theorem kept_concat (t : Text) (es : List Edit) (e : Edit) (o : Nat) :
    t.kept (es ++ [e]) o = if e.Covers o then [] else t.kept es o := by
  unfold kept
  by_cases h : e.Covers o <;> simp [List.mem_append, or_and_right, exists_or, h]

/-- Nothing is inserted or replaced in front of the first edit. -/
theorem untouched (h : ∀ f ∈ es, o < f.offset) : inserted es o = [] ∧ t.kept es o = (t[o]?).toList := by
  have hfilter : es.filter (·.offset = o) = [] := by
    refine List.filter_eq_nil_iff.mpr fun f hf => ?_
    have := h f hf
    simp only [decide_eq_true_eq]
    omega
  have hcovers : ¬∃ f ∈ es, f.Covers o := by
    rintro ⟨f, hf, hle, -⟩
    exact absurd (h f hf) (Nat.not_lt.mpr hle)
  exact ⟨by rw [inserted, hfilter, List.flatMap_nil], if_neg hcovers⟩

theorem flatMap_getElem? (l : Bytes) (start count : Nat) :
    ((List.range' start count).flatMap fun o => (l[o]?).toList) = (l.drop start).take count := by
  induction count generalizing start with
  | zero => simp
  | succ count ih =>
    rw [List.range'_succ, List.flatMap_cons, ih]
    by_cases h : start < l.length
    · rw [List.drop_eq_getElem_cons h, List.getElem?_eq_getElem h]
      rfl
    · rw [List.getElem?_eq_none (by omega), List.drop_of_length_le (by omega),
        List.drop_of_length_le (by omega), List.take_nil, List.take_nil]
      rfl

/-- The text in front of the first edit is as it was. -/
theorem replacedWithin_front {count : Nat} (h : ∀ f ∈ es, count ≤ f.offset) :
    t.replacedWithin es 0 count = t.toList.take count := by
  rw [← List.drop_zero (l := t.toList), ← flatMap_getElem?]
  refine List.flatMap_congr fun o ho => ?_
  have ho' : o < count := by simpa using (List.mem_range'_1.mp ho).2
  obtain ⟨hinserted, hkept⟩ := untouched (t := t) fun f hf => Nat.lt_of_lt_of_le ho' (h f hf)
  rw [hinserted, hkept, List.nil_append, Array.getElem?_toList]

/-- What an edit does to its own stretch, if all others start behind it. -/
theorem replacedWithin_stretch (h : ∀ f ∈ es, e.offset + e.oldLength ≤ f.offset) :
    t.replacedWithin (es ++ [e]) 0 (e.offset + e.oldLength)
      = t.toList.take e.offset ++ if e.oldLength = 0 then [] else e.newText := by
  have hfront : t.replacedWithin (es ++ [e]) 0 e.offset = t.toList.take e.offset := by
    refine replacedWithin_front fun f hf => ?_
    rcases List.mem_append.mp hf with hf | hf
    · exact Nat.le_of_add_right_le (h f hf)
    · rw [List.mem_singleton.mp hf]
  rw [replacedWithin_add, hfront, Nat.zero_add]
  refine congrArg (t.toList.take e.offset ++ ·) ?_
  cases hlength : e.oldLength with
  | zero => rfl
  | succ count =>
    have hcovered : ∀ o, e.offset ≤ o → o < e.offset + (count + 1) →
        inserted (es ++ [e]) o ++ t.kept (es ++ [e]) o = if e.offset = o then e.newText else [] := by
      intro o hle hlt
      have hcovers : e.Covers o := ⟨hle, by omega⟩
      rw [inserted_concat, kept_concat, if_pos hcovers, List.append_nil,
        (untouched (t := t) fun f hf => by have := h f hf; omega).1, List.nil_append]
    rw [replacedWithin, List.range'_succ, List.flatMap_cons, hcovered _ (Nat.le_refl _) (by omega),
      if_pos rfl, if_neg (Nat.succ_ne_zero count)]
    refine (congrArg (_ ++ ·) (List.flatMap_eq_nil_iff.mpr fun o ho => ?_)).trans (List.append_nil _)
    obtain ⟨hle, hlt⟩ := List.mem_range'_1.mp ho
    rw [hcovered o (by omega) (by omega), if_neg (by omega)]

/-- Behind its stretch an edit only leaves the text that it inserts there. -/
theorem replacedWithin_rest (hsize : e.Inside t)
    (h : ∀ f ∈ es, e.offset < f.offset) :
    t.replacedWithin (es ++ [e]) (e.offset + e.oldLength) (t.size + 1 - (e.offset + e.oldLength))
      = (if e.oldLength = 0 then e.newText else [])
        ++ t.replacedWithin es (e.offset + e.oldLength) (t.size + 1 - (e.offset + e.oldLength)) := by
  have hle : e.offset + e.oldLength ≤ t.size := hsize
  have hrest : ∀ o, e.offset + e.oldLength ≤ o → e.offset ≠ o →
      inserted (es ++ [e]) o ++ t.kept (es ++ [e]) o = inserted es o ++ t.kept es o := by
    intro o hle hne
    rw [inserted_concat, kept_concat, if_neg hne, List.append_nil, if_neg (fun hcovers => by
      have := hcovers.2
      omega)]
  unfold replacedWithin
  by_cases hlength : e.oldLength = 0
  · -- the text is inserted in front of the first byte behind the stretch, which is empty
    obtain ⟨count, hcount⟩ : ∃ count, t.size + 1 - (e.offset + e.oldLength) = count + 1 :=
      ⟨t.size - (e.offset + e.oldLength), by omega⟩
    have hfirst : inserted (es ++ [e]) (e.offset + e.oldLength) = e.newText := by
      rw [inserted_concat, hlength, Nat.add_zero, if_pos rfl,
        (untouched (t := t) h).1, List.nil_append]
    have hkept : t.kept (es ++ [e]) (e.offset + e.oldLength) = t.kept es (e.offset + e.oldLength) := by
      rw [kept_concat, if_neg (fun hcovers => absurd hcovers.2 (Nat.lt_irrefl _))]
    rw [hcount, List.range'_succ, List.flatMap_cons, List.flatMap_cons, hfirst, hkept, if_pos hlength,
      hlength, Nat.add_zero, (untouched (t := t) h).1, List.nil_append, List.append_assoc]
    refine congrArg (_ ++ ·) (congrArg (_ ++ ·) (List.flatMap_congr fun o ho => ?_))
    have := (List.mem_range'_1.mp ho).1
    exact hrest o (by omega) (by omega)
  · rw [if_neg hlength, List.nil_append]
    refine List.flatMap_congr fun o ho => ?_
    have := (List.mem_range'_1.mp ho).1
    exact hrest o (by omega) (by omega)

theorem toList_applyTo (e : Edit) (t : Text) :
    (e.applyTo t).toList
      = t.toList.take e.offset ++ e.newText ++ t.toList.drop (e.offset + e.oldLength) := by
  simp [Edit.applyTo, Text.splice, List.extract_eq_take_drop]

/-- **An edit in front of others.** If all other edits start behind an edit, it finds the stretch that it
means although they have been applied already. -/
theorem into_replaceAll (hsize : e.Inside t)
    (h : ∀ f ∈ es, e.offset < f.offset ∧ e.offset + e.oldLength ≤ f.offset) :
    e.into (t.replaceAll es) = t.replaceAll (es ++ [e]) := by
  have hle : e.offset + e.oldLength ≤ t.size := hsize
  have hbefore := toList_replaceAll t es (k := e.offset + e.oldLength) (by omega)
  rw [replacedWithin_front fun f hf => (h f hf).2] at hbefore
  have hlength : (t.toList.take (e.offset + e.oldLength)).length = e.offset + e.oldLength := by
    simpa using hle
  have hinside : e.Inside (t.replaceAll es) := by
    have := congrArg List.length hbefore
    rw [List.length_append, hlength, Array.length_toList] at this
    show e.offset + e.oldLength ≤ (t.replaceAll es).size
    omega
  refine Array.toList_inj.mp ?_
  rw [Edit.into, Edit.clamp_of_inside hinside, toList_applyTo, hbefore,
    List.take_append_of_le_length (by omega), List.take_take, Nat.min_eq_left (Nat.le_add_right _ _),
    List.drop_left' hlength, toList_replaceAll t (es ++ [e]) (k := e.offset + e.oldLength) (by omega),
    replacedWithin_stretch fun f hf => (h f hf).2, replacedWithin_rest hsize fun f hf => (h f hf).1]
  by_cases hzero : e.oldLength = 0 <;> simp [hzero]

theorem foldl_into {es : List Edit} (hinside : ∀ e ∈ es, e.Inside t)
    (hsorted : es.Pairwise fun a b => b.offset < a.offset ∧ b.offset + b.oldLength ≤ a.offset) :
    es.foldl (fun t e => e.into t) t = t.replaceAll es := by
  induction es using List.reverseRecOn with
  | nil =>
    refine Array.toList_inj.mp ?_
    rw [List.foldl_nil, toList_replaceAll t [] (Nat.le_refl _), replacedWithin_front (by simp)]
    simp [replacedWithin]
  | append_singleton es e ih =>
    obtain ⟨hes, -, hlast⟩ := List.pairwise_append.mp hsorted
    rw [List.foldl_append, ih (fun f hf => hinside f (List.mem_append_left _ hf)) hes, List.foldl_cons,
      List.foldl_nil]
    exact into_replaceAll (hinside e (by simp)) fun f hf => hlast f hf e (by simp)

/-- The order of edits that start at different offsets does not enter. -/
theorem replaceAll_perm {es es' : List Edit} (hperm : es.Perm es')
    (hne : es.Pairwise fun a b => a.offset ≠ b.offset) : t.replaceAll es = t.replaceAll es' := by
  have hinserted : ∀ o, inserted es o = inserted es' o := by
    intro o
    have hfilter : (es.filter (·.offset = o)).Perm (es'.filter (·.offset = o)) := hperm.filter _
    have hstart : ∀ a ∈ es.filter (·.offset = o), a.offset = o := fun a ha =>
      of_decide_eq_true (List.mem_filter.mp ha).2
    have honce := hne.filter (·.offset = o)
    unfold inserted
    -- at most one of the edits starts here
    rcases hfound : es.filter (·.offset = o) with - | ⟨a, - | ⟨b, as⟩⟩
    · rw [hfound] at hfilter
      rw [hfound, List.nil_perm.mp hfilter]
    · rw [hfound] at hfilter
      rw [hfound, List.singleton_perm.mp hfilter]
    · rw [hfound] at honce hstart
      exact absurd ((hstart a (by simp)).trans (hstart b (by simp)).symm)
        ((List.pairwise_cons.mp honce).1 b (by simp))
  have hkept : ∀ o, t.kept es o = t.kept es' o := by
    intro o
    simp only [kept, hperm.mem_iff]
  simp only [replaceAll, hinserted, hkept]

end Text

namespace Document

/-- **Batches are simultaneous.** In whatever state a document is: if all edits of a batch lie inside its
text, start at different offsets, and none starts inside the stretch that another one replaces, then the
batch leaves the text with all the stretches replaced at once. -/
theorem edits_text (d : Document) (es : List Edit) (log : Log)
    (hinside : ∀ e ∈ es, e.Inside d.text) (hapart : es.Pairwise Edit.Apart) :
    (d.edits es log).1.text = d.text.replaceAll es := by
  have hperm : (es.mergeSort fun a b => b.offset ≤ a.offset).Perm es := List.mergeSort_perm _ _
  have hdescending : (es.mergeSort fun a b => b.offset ≤ a.offset).Pairwise
      fun a b => decide (b.offset ≤ a.offset) = true := List.pairwise_mergeSort
    (fun a b c => by simp only [decide_eq_true_eq]; omega)
    (fun a b => by simp only [Bool.or_eq_true, decide_eq_true_eq]; omega) es
  have hsorted : (es.mergeSort fun a b => b.offset ≤ a.offset).Pairwise
      fun a b => b.offset < a.offset ∧ b.offset + b.oldLength ≤ a.offset := by
    refine hdescending.imp₂ (fun a b hle (hab : a.Apart b) => ?_)
      (hapart.perm hperm.symm Edit.Apart.symm)
    have hle' : b.offset ≤ a.offset := by simpa using hle
    obtain ⟨hne, hend⟩ := hab
    omega
  calc (d.edits es log).1.text
      = (es.mergeSort fun a b => b.offset ≤ a.offset).foldl (fun t e => e.into t) d.text :=
        performAll_text d [.edits es] log
    _ = d.text.replaceAll (es.mergeSort fun a b => b.offset ≤ a.offset) :=
        Text.foldl_into (fun e he => hinside e (hperm.mem_iff.mp he)) hsorted
    _ = d.text.replaceAll es :=
        Text.replaceAll_perm hperm (hsorted.imp fun h => Nat.ne_of_gt h.1)

/-- A batch that is given from the front: a replacement, an insertion right behind the stretch, a deletion. -/
def chainBatch : List Edit :=
  [⟨0, 1, Bytes.ascii "--"⟩, ⟨1, 0, Bytes.ascii "+"⟩, ⟨2, 1, []⟩]

/-- The batch on `+`, a new line and `-`.  Only the second of the texts that follow each other parses. -/
theorem edits_chainBatch_text :
    (∀ e ∈ chainBatch, e.Inside (((ofParser pairParser).performAll pairRun #[]).1.text))
      ∧ chainBatch.Pairwise Edit.Apart
      ∧ (((ofParser pairParser).performAll pairRun #[]).1.edits chainBatch #[]).1.text
          = (Bytes.ascii "--+\n").toArray := by
  have htext : ((ofParser pairParser).performAll pairRun #[]).1.text = (Bytes.ascii "+\n-").toArray :=
    performAll_text _ _ _
  have hinside : ∀ e ∈ chainBatch, e.Inside (((ofParser pairParser).performAll pairRun #[]).1.text) := by
    rw [htext]
    decide
  have hapart : chainBatch.Pairwise Edit.Apart := by decide
  refine ⟨hinside, hapart, ?_⟩
  rw [edits_text _ chainBatch #[] hinside hapart, htext]
  decide

/-! ### An insertion inside a replaced stretch -/

/-- A document with the text `abcdef`, which does not parse. -/
def lettersDocument : Document :=
  ((ofParser pairParser).performAll [.parse (Bytes.ascii "abcdef").toArray] #[]).1

/-- The letters `bcde` are replaced, and letters are inserted in the middle of them. -/
def nestedBatch : List Edit := [⟨1, 4, Bytes.ascii "X"⟩, ⟨3, 0, Bytes.ascii "YZ"⟩]

/-- The insertion and the stretch around it have no offset in common, and the edits start at different
offsets.  But the insertion is applied first, and what it has inserted is then taken for a part of the
stretch: it is lost, and the letters that it has moved are kept. -/
theorem edits_nestedBatch :
    lettersDocument.text = (Bytes.ascii "abcdef").toArray
      ∧ (∀ e ∈ nestedBatch, e.Inside lettersDocument.text)
      ∧ nestedBatch.Pairwise (fun a b => a.offset ≠ b.offset ∧ ∀ o, ¬(a.Covers o ∧ b.Covers o))
      ∧ lettersDocument.text.replaceAll nestedBatch = (Bytes.ascii "aXYZf").toArray
      ∧ (lettersDocument.edits nestedBatch #[]).1.text = (Bytes.ascii "aXdef").toArray := by
  have htext : lettersDocument.text = (Bytes.ascii "abcdef").toArray := performAll_text _ _ _
  refine ⟨htext, ?_, ?_, ?_, ?_⟩
  · rw [htext]
    decide
  · refine List.pairwise_pair.mpr ⟨by decide, fun o => ?_⟩
    rintro ⟨-, hle, hlt⟩
    exact absurd (Nat.lt_of_le_of_lt hle hlt) (by decide)
  · rw [htext]
    decide
  · refine (performAll_text lettersDocument [.edits nestedBatch] #[]).trans ?_
    rw [htext]
    cbv

end Document

end Packrat
