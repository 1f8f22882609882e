import MarkCompact.Proofs.Listings

/-!
# What marking records

A bitmap is marked by one call for each reference that is met, so that most objects are marked more
than once.  Whatever the order of the calls, the first one for an object is the one that is told so,
and afterwards the bitmap is as good as the set of the marked objects: `Records` says how each of
its questions is answered from them.

Main statement: `markAll_records`.
-/

namespace MarkCompact

variable {objs os calls : List Span} {o : Span} {a b i : ℕ}

namespace MarkBitmap

variable {m : MarkBitmap}

/-- Marks objects one after the other, and tells of each whether it was unmarked. -/
def markAll (m : MarkBitmap) : List Span → Except Fault (List Bool × MarkBitmap)
  | [] => pure ([], m)
  | o :: rest => do
    let (fresh, m) ← m.mark (m.covered.addr o.start) o.words
    let (answers, m) ← m.markAll rest
    pure (fresh :: answers, m)

/-- What is asked of the bitmap is answered from the objects `objs`: where objects start and end,
how large they are, and which of them start in a range, listed at once or in two parts. -/
structure Records (m : MarkBitmap) (objs : List Span) : Prop where
  starts : ∀ i, i < m.covered.words → m.begins.read i = .ok (decide (∃ o ∈ objs, o.start = i))
  ends : ∀ i, i < m.covered.words → m.ends.read i = .ok (decide (∃ o ∈ objs, o.past = i + 1))
  size : ∀ o ∈ objs, m.objectSize (m.covered.addr o.start) = .ok o.words
  list : ∀ a b, a ≤ m.covered.words → b ≤ m.covered.words → ∃ os, Lists (StartsIn objs a b) os
    ∧ (∃ resume, m.liveObjects (m.covered.addr a) (m.covered.addr b) none
      = .ok (os.map (·.run m.covered), resume))
    ∧ ∀ k, ∃ resume resume',
      m.liveObjects (m.covered.addr a) (m.covered.addr b) (some k)
        = .ok ((os.take k).map (·.run m.covered), resume)
      ∧ m.liveObjects resume (m.covered.addr b) none
        = .ok ((os.drop k).map (·.run m.covered), resume')

namespace Marks

/-- The marked objects are recorded. -/
lemma records (h : m.Marks objs) : m.Records objs where
  starts i hi := by
    rw [Bitset.read, if_pos (h.begins_size ▸ hi)]
    refine congrArg Except.ok (Bool.eq_iff_iff.2 ?_)
    rw [decide_eq_true_iff]
    exact h.mem_begins i
  ends i hi := by
    rw [Bitset.read, if_pos (h.ends_size ▸ hi)]
    refine congrArg Except.ok (Bool.eq_iff_iff.2 ?_)
    rw [decide_eq_true_iff]
    exact h.mem_ends i
  size _ ho := h.objectSize_eq ho
  list a b ha hb := by
    obtain ⟨os, hos⟩ := exists_lists h.separate a b
    refine ⟨os, hos, h.liveObjects_all ha hb hos, fun k => ?_⟩
    obtain ⟨c, hc, heq, hleft⟩ := h.liveObjects_take ha hb hos k
    obtain ⟨resume', heq'⟩ := h.liveObjects_all hc hb hleft
    exact ⟨_, resume', heq, heq'⟩

end Marks

/-- What is recorded does not depend on the order in which the objects are given, nor on how often
each is. -/
lemma Records.congr (h : m.Records objs) (hiff : ∀ o, o ∈ objs ↔ o ∈ os) : m.Records os where
  starts i hi := by simpa only [hiff] using h.starts i hi
  ends i hi := by simpa only [hiff] using h.ends i hi
  size o ho := h.size o ((hiff o).2 ho)
  list a b ha hb := by
    obtain ⟨listed, hlisted, hall⟩ := h.list a b ha hb
    exact ⟨listed, hlisted.congr fun o => and_congr_left fun _ => hiff o, hall⟩

/-- A call is told that it marked its object exactly if the object is neither marked at first nor by
an earlier call. -/
lemma Marks.markAll_eq (h : m.Marks objs) (hpos : ∀ o ∈ calls, 0 < o.words)
    (hpast : ∀ o ∈ calls, o.past ≤ m.covered.words)
    (hapart : ∀ o ∈ calls, ∀ o', o' ∈ objs ∨ o' ∈ calls → o = o' ∨ o.Apart o') :
    ∃ answers m' marked, m.markAll calls = .ok (answers, m') ∧ m'.Marks marked ∧ (∀ o, o ∈ marked
      ↔ o ∈ objs ∨ o ∈ calls)
      ∧ ∀ i, answers[i]? = calls[i]?.map fun o => decide (o ∉ objs ∧ o ∉ calls.take i) := by
  induction calls generalizing m objs with
  | nil => exact ⟨[], m, objs, rfl, h, by simp, by simp⟩
  | cons o rest ih =>
    have ho := List.mem_cons_self (a := o) (l := rest)
    have hrest : ∀ o' ∈ rest, o' ∈ o :: rest := fun o' => List.mem_cons_of_mem o
    -- After the first call, `o` is among the marked objects.
    have hcall : ∃ m₁ objs₁, m.mark (m.covered.addr o.start) o.words = .ok (decide (o ∉ objs), m₁)
        ∧ m₁.Marks objs₁
        ∧ m₁.covered = m.covered ∧ ∀ o', o' ∈ objs₁ ↔ o' ∈ objs ∨ o' = o := by
      by_cases hmarked : o ∈ objs
      · refine ⟨m, objs, ?_, h, rfl, fun o' => ⟨Or.inl, ?_⟩⟩
        · rw [h.mark_marked hmarked (hpos o ho), decide_eq_false (not_not.2 hmarked)]
        · rintro (hin | rfl)
          · exact hin
          · exact hmarked
      · have hsep : Separate (o :: objs) := h.separate.cons (hpos o ho) fun o' ho' =>
          (hapart o ho o' (Or.inl ho')).resolve_left (by rintro rfl; exact hmarked ho')
        have hfits : m.covered.words < wordValues := by
          have hlt := h.covered_lt
          have hle := Nat.div_le_self m.covered.size bytesPerWord
          rw [Extent.words]
          omega
        obtain ⟨m₁, heq, hm₁, hcovered⟩ := h.mark_eq hsep (hpast o ho) hfits
        refine ⟨m₁, o :: objs, ?_, hm₁, hcovered, fun o' => ?_⟩
        · rw [heq, decide_eq_true hmarked]
        · rw [List.mem_cons, or_comm]
    obtain ⟨m₁, objs₁, heq₁, hm₁, hcovered, hmem₁⟩ := hcall
    obtain ⟨answers, m', marked, heq, hm', hmem, hanswers⟩ :=
      ih hm₁ (fun o' ho' => hpos o' (hrest o' ho'))
      (fun o' ho' => hcovered ▸ hpast o' (hrest o' ho')) fun o' ho' o'' ho'' => by
        refine hapart o' (hrest o' ho') o'' ?_
        rw [hmem₁] at ho''
        rw [List.mem_cons]
        tauto
    refine ⟨decide (o ∉ objs) :: answers, m', marked, ?_, hm', fun o' => ?_, fun i => ?_⟩
    · rw [markAll, heq₁, ok_bind]
      dsimp only
      rw [heq, ok_bind]
      rfl
    · rw [hmem, hmem₁, List.mem_cons, or_assoc]
    · cases i with
      | zero => simp
      | succ i =>
        rw [List.getElem?_cons_succ, List.getElem?_cons_succ, hanswers, List.take_succ_cons]
        refine congrArg (Option.map · _) (funext fun o' => decide_eq_decide.2 ?_)
        rw [hmem₁, List.mem_cons]
        tauto

/-- Objects that are equal or have no word in common can be marked in any order and any number of
times: the first call for an object tells that it is new, no other one does, and the bitmap then
records exactly these objects. -/
theorem markAll_records (h : m.Marks []) (hpos : ∀ o ∈ calls, 0 < o.words)
    (hpast : ∀ o ∈ calls, o.past ≤ m.covered.words)
    (hapart : ∀ o ∈ calls, ∀ o' ∈ calls, o = o' ∨ o.Apart o') :
    ∃ answers m', m.markAll calls = .ok (answers, m')
      ∧ (∀ i, answers[i]? = calls[i]?.map fun o => decide (o ∉ calls.take i))
      ∧ m'.Records calls := by
  obtain ⟨answers, m', marked, heq, hm', hmem, hanswers⟩ :=
    h.markAll_eq hpos hpast fun o ho o' ho' =>
    hapart o ho o' (ho'.resolve_left List.not_mem_nil)
  exact ⟨answers, m', heq, by simpa using hanswers,
    hm'.records.congr fun o => by simpa using hmem o⟩

/-- Three objects in 130 words, marked last first; one of them has one word, one lies across three
lines of the sets and one ends with the range.  Two are marked again. -/
theorem markAll_records_repeated : (unmarked ⟨4096, 1040⟩).Marks []
    ∧ (∀ o ∈ [(⟨129, 1⟩ : Span), ⟨4, 125⟩, ⟨129, 1⟩, ⟨3, 1⟩, ⟨4, 125⟩], 0 < o.words ∧ o.past ≤ 130)
    ∧ ∃ m', (unmarked ⟨4096, 1040⟩).markAll [⟨129, 1⟩, ⟨4, 125⟩, ⟨129, 1⟩, ⟨3, 1⟩, ⟨4, 125⟩]
        = .ok ([true, true, false, true, false], m')
      ∧ m'.Records [⟨129, 1⟩, ⟨4, 125⟩, ⟨129, 1⟩, ⟨3, 1⟩, ⟨4, 125⟩] := by
  have hmarks : (unmarked ⟨4096, 1040⟩).Marks [] := marks_unmarked (by decide)
  refine ⟨hmarks, by decide, ?_⟩
  obtain ⟨answers, m', heq, hanswers, hrecords⟩ := markAll_records hmarks
    (show ∀ o ∈ [(⟨129, 1⟩ : Span), ⟨4, 125⟩, ⟨129, 1⟩, ⟨3, 1⟩, ⟨4, 125⟩],
      0 < o.words by decide) (by decide)
    (by simp [Span.Apart, Span.past])
  have hall : answers = [true, true, false, true, false] := by
    refine List.ext_getElem? fun i => (hanswers i).trans ?_
    obtain _ | _ | _ | _ | _ | i := i <;> rfl
  exact ⟨m', hall ▸ heq, hrecords⟩

end MarkBitmap

end MarkCompact
