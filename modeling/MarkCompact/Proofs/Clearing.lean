import MarkCompact.Collector
import MarkCompact.Proofs.PlannedHeaps

/-!
# Clearing the side tables

Between two cycles the tables still hold what the last one has left: marks of objects and summaries
of regions. `h.Orderly old zones` says that all of this lies in the spaces.  A cycle begins by
clearing the tables over every space, and then nothing is marked, every region is empty and no
object start is recorded.

Main statement: `clearSpaces_runs`.
-/

namespace MarkCompact

variable {old objs : List Span} {zones : List Zone} {z : Zone} {i n r : ℕ}

/-- A space of which nothing is known any more. -/
def Space.cleared (s : Space) : Space :=
  { s with starts := s.starts.reset, liveWords := 0, liveObjects := 0 }

/-- The object lies in the zone, below its top or not. -/
def Zone.Encloses (z : Zone) (W : ℕ) (o : Span) : Prop :=
  z.first * W ≤ o.start ∧ o.past ≤ z.last * W

lemma Zone.Holds.encloses {W words : ℕ} {o : Span} (h : z.Holds W o) (hz : z.Ordered W words) :
    z.Encloses W o :=
  ⟨h.1, h.2.trans hz.top_le_last⟩

/-- An object of one zone has no word in another. -/
lemma Zone.Encloses.misses {W : ℕ} {o : Span} {z' : Zone} (h : z.Encloses W o)
    (hapart : z.Apart z') : z'.Misses W o := by
  rcases hapart with hlast | hfirst
  · exact Or.inl (h.2.trans (Nat.mul_le_mul_right W hlast))
  · exact Or.inr ((Nat.mul_le_mul_right W hfirst).trans h.1)

lemma Space.Over.cleared {s : Space} {e : Extent} {W : ℕ} (h : s.Over e W z) :
    s.cleared.Over e W z :=
  ⟨h.bottom, h.limit, h.top, ⟨h.starts.covered, h.starts.le, h.starts.stop_lt⟩⟩

namespace Heap

variable {μ : Type} {h h' : Heap μ} {s : Space}

/-- The tables belong together, and what they hold lies in the spaces; `old` are the marked
objects. -/
structure Orderly (h : Heap μ) (old : List Span) (zones : List Zone) : Prop where
  consistent : h.Consistent old
  spaces_over : List.Forall₂
    (fun s z => s.Over h.table.covered h.table.geometry.regionWords z) h.spaces zones
  ordered : ∀ z ∈ zones, z.Ordered h.table.geometry.regionWords h.table.covered.words
  keep_eq : ∀ z ∈ zones, z.keep = z.first
  apart : zones.Pairwise Zone.Apart
  encloses : ∀ o ∈ old, ∃ z ∈ zones, z.Encloses h.table.geometry.regionWords o
  outside : ∀ r, (∀ z ∈ zones, ¬(z.first ≤ r ∧ r < z.last)) →
    (h.table.regions.get r).partialWords = 0

lemma Orderly.withLog (ho : h.Orderly old zones) (log : List LogRecord) :
    Orderly { h with log } old zones :=
  { ho with consistent := ho.consistent.withLog log }

lemma Orderly.liesOver (ho : h.Orderly old zones) :
    h.LiesOver h.table.geometry.regionWords zones where
  spaces_over := ho.consistent.covered ▸ ho.spaces_over
  ordered := ho.consistent.covered ▸ ho.ordered
  apart := ho.apart

end Heap

/-- Clearing a range of regions empties them and no others. -/
lemma RegionTable.Laid.clear_eq {t : RegionTable} (ht : t.Laid) {first last : ℕ}
    (hle : first ≤ last) (hlast : last * t.geometry.regionWords ≤ t.covered.words) :
    ∃ t', t.clear (t.covered.addr (first * t.geometry.regionWords))
      (t.covered.addr (last * t.geometry.regionWords)) = .ok t'
      ∧ t.SameShape t' ∧ ∀ r, t'.regions.get r = if first ≤ r ∧ r < last then {}
        else t.regions.get r := by
  have hfirst := le_trans (Nat.mul_le_mul_right t.geometry.regionWords hle) hlast
  refine ⟨{ t with
    regions := t.regions.clear first last
    blocks := t.blocks.clear (t.firstBlock first) (t.firstBlock last) }, ?_,
    ⟨rfl, rfl, rfl, rfl, rfl, rfl⟩, fun r => ?_⟩
  · rw [RegionTable.clear, ht.regionOf_addr hfirst, ht.regionUpTo_addr hlast,
      Nat.mul_div_cancel _ t.geometry.regionWords_pos, upTo_mul t.geometry.regionWords_pos,
      ok_bind, ok_bind,
      if_neg (by omega)]
    rfl
  · rw [Table.get_clear, ht.regions_blank]

namespace Heap

variable {μ : Type} {h h' h'' : Heap μ} {s : Space}

/-- The heap `h'` is `h` with the tables over the first `n` spaces cleared; `old'` are the objects
that are still marked. -/
structure ClearedTo (h h' : Heap μ) (n : ℕ) (old' : List Span) (zones : List Zone) : Prop where
  frame : ∃ bitmap table spaces, h' = { h with bitmap, table, spaces }
  orderly : h'.Orderly old' zones
  shape : h.table.SameShape h'.table
  rest : ∀ o ∈ old', ∃ j z, n ≤ j ∧ zones[j]? = some z ∧ z.Encloses h.table.geometry.regionWords o
  cleared : ∀ j z, j < n → zones[j]? = some z → ∀ r, z.first ≤ r → r < z.last →
    h'.table.regions.get r = {}
  spaces : ∀ j, h'.spaces[j]? = h.spaces[j]?.map fun s => if j < n then s.cleared else s

/-- No object is left in the next space once its marks are gone. -/
lemma ClearedTo.rest_next (hc : h.ClearedTo h' n old zones) (hz : zones[n]? = some z) :
    ∀ o ∈ old.filter (fun o => ¬(z.first * h'.table.geometry.regionWords ≤ o.start
      ∧ o.start < z.last * h'.table.geometry.regionWords)), ∃ j z, n + 1 ≤ j ∧ zones[j]? = some z
        ∧ z.Encloses h'.table.geometry.regionWords o := by
  intro o hin
  simp only [List.mem_filter, decide_eq_true_eq] at hin
  obtain ⟨j, z', hj, hz', hin'⟩ := hc.rest o hin.1
  rw [← hc.shape.geometry] at hin'
  rcases Nat.eq_or_lt_of_le hj with rfl | hlt
  · cases hz.symm.trans hz'
    have hlt := hc.orderly.consistent.marks.separate.start_lt_past hin.1
    have hpast := hin'.2
    exact absurd ⟨hin'.1, by omega⟩ hin.2
  · exact ⟨j, z', hlt, hz', hin'⟩

section

variable {m : MarkBitmap} {t : RegionTable} (hcovered : m.covered = h'.table.covered)
  (hshape : h'.table.SameShape t)
  (hregions : ∀ r, t.regions.get r = if z.first ≤ r ∧ r < z.last then {}
    else h'.table.regions.get r)
  (hover : s.Over h'.table.covered h'.table.geometry.regionWords z)
include hcovered hshape hregions hover

/-- A heap stays in order when one of its spaces and the tables over it are cleared. -/
lemma Orderly.cleared_step (ho : h'.Orderly old zones) (hz : zones[n]? = some z) {os : List Span}
    (hmarks : m.Marks os)
    (hencloses : ∀ o ∈ os, ∃ z ∈ zones, z.Encloses h'.table.geometry.regionWords o) :
    ({ h' with bitmap := m, table := t }.setSpace n s.cleared).Orderly os zones where
  consistent := ⟨hshape.laid ho.consistent.laid, hmarks, hcovered.trans hshape.covered.symm,
    ho.consistent.covered.trans hshape.covered.symm,
    ho.consistent.geometry.trans hshape.geometry.symm⟩
  spaces_over := by
    rw [setSpace, hshape.covered, hshape.geometry]
    exact forall₂_set ho.spaces_over hz hover.cleared
  ordered := by
    rw [setSpace, hshape.covered, hshape.geometry]
    exact ho.ordered
  keep_eq := ho.keep_eq
  apart := ho.apart
  encloses := by
    rw [setSpace, hshape.geometry]
    exact hencloses
  outside r hr := by
    rw [setSpace, hregions]
    split
    · rfl
    · exact ho.outside r hr

/-- What clearing the tables over the next space leaves. -/
lemma ClearedTo.step (hc : h.ClearedTo h' n old zones) (hz : zones[n]? = some z)
    (hs : h'.spaces[n]? = some s)
    (hmarks : m.Marks (old.filter fun o => ¬(z.first * h'.table.geometry.regionWords ≤ o.start
      ∧ o.start < z.last * h'.table.geometry.regionWords))) :
    h.ClearedTo ({ h' with bitmap := m, table := t }.setSpace n s.cleared) (n + 1)
      (old.filter fun o => ¬(z.first * h'.table.geometry.regionWords ≤ o.start
        ∧ o.start < z.last * h'.table.geometry.regionWords)) zones where
  frame := by
    obtain ⟨bitmap₀, table₀, spaces₀, rfl⟩ := hc.frame
    exact ⟨m, t, _, rfl⟩
  orderly := hc.orderly.cleared_step hcovered hshape hregions hover hz hmarks fun o hin => by
    obtain ⟨j, z', _, hz', hin'⟩ := hc.rest_next hz o hin
    exact ⟨z', List.mem_of_getElem? hz', hin'⟩
  shape := hc.shape.trans hshape
  rest := by
    rw [← hc.shape.geometry]
    exact hc.rest_next hz
  cleared j z' hj hz' r h1 h2 := by
    rw [setSpace, hregions]
    split
    case isTrue => rfl
    case isFalse hout =>
      rcases Nat.lt_succ_iff_lt_or_eq.1 hj with hlt | rfl
      · exact hc.cleared j z' hlt hz' r h1 h2
      · cases hz.symm.trans hz'
        exact absurd ⟨h1, h2⟩ hout
  spaces j := by
    have hspace : ({ h' with bitmap := m, table := t } : Heap μ).spaces[n]? = some s := hs
    have hold := hc.spaces j
    by_cases heq : n = j
    · subst heq
      rw [hs] at hold
      obtain ⟨s₀, hs₀, rfl⟩ := Option.map_eq_some_iff.1 hold.symm
      rw [space_setSpace_self hspace, hs₀, Option.map_some, if_pos (Nat.lt_succ_self n),
        if_neg (lt_irrefl n)]
    · rw [space_setSpace_of_ne heq]
      show h'.spaces[j]? = _
      simp only [hold, show j < n + 1 ↔ j < n by omega]

end

/-- The tables over the next space are cleared. -/
lemma ClearedTo.next_runs (hc : h.ClearedTo h' n old zones) (hn : n < h'.spaces.length) :
    Runs (clearSpace n) h' fun _ h'' => ∃ old', h.ClearedTo h'' (n + 1) old' zones := by
  have ho := hc.orderly
  have hs : h'.spaces[n]? = some h'.spaces[n] := List.getElem?_eq_getElem hn
  obtain ⟨z, hz, hover'⟩ := ho.liesOver.exists_zone hs
  have hover : h'.spaces[n].Over h'.table.covered h'.table.geometry.regionWords z :=
    ho.consistent.covered ▸ hover'
  have hord := ho.ordered z (List.mem_of_getElem? hz)
  have hle : z.first ≤ z.last := hord.first_lt_last.le
  have hmul := Nat.mul_le_mul_right h'.table.geometry.regionWords hle
  obtain ⟨m, hmark, hmarks, hcovered⟩ :=
    ho.consistent.marks.clear_eq hmul (ho.consistent.words_eq ▸ hord.last_le) fun o hin => by
    obtain ⟨j, z', hj, hz', hin'⟩ := hc.rest o hin
    rw [← hc.shape.geometry] at hin'
    by_cases heq : j = n
    · subst heq
      cases hz.symm.trans hz'
      exact Or.inl hin'
    · exact Or.inr (hin'.misses (Zone.apart_of_ne ho.apart hz' hz heq))
  obtain ⟨t, hclear, hshape, hregions⟩ := ho.consistent.laid.clear_eq hle hord.last_le
  rw [ho.consistent.bitmap_covered] at hmark hcovered
  rw [← hover.bottom, ← hover.limit] at hmark hclear
  simp only [clearSpace, runs_bind, runs_get, space_eq hs, runs_check_ok]
  rw [hmark, runs_check_ok, runs_modify, runs_onTable (t := t) hclear]
  have hspace : ({ h' with bitmap := m, table := t } : Heap μ).spaces[n]? = some h'.spaces[n] := hs
  have heq : (pure h'.spaces[n].cleared : Except Fault Space) = .ok h'.spaces[n].cleared := rfl
  exact (runs_onSpace hspace heq).2 ⟨_, hc.step hcovered hshape hregions hover hz hs hmarks⟩

/-- A cycle begins with nothing marked and nothing planned. -/
theorem Orderly.clearSpaces_runs (ho : h.Orderly old zones) :
    Runs ((List.range h.spaces.length).forM clearSpace) h fun _ h' => h'.Unplanned [] zones
      ∧ (∃ bitmap table spaces, h' = { h with bitmap, table, spaces }) ∧ h.table.SameShape h'.table
      ∧ h'.spaces = h.spaces.map Space.cleared := by
  have hzero : h.ClearedTo h 0 old zones :=
    { frame := ⟨_, _, _, rfl⟩
      orderly := ho
      shape := .refl _
      rest := fun o hin => by
        obtain ⟨z, hz, hin'⟩ := ho.encloses o hin
        obtain ⟨j, hj⟩ := List.mem_iff_getElem?.1 hz
        exact ⟨j, z, Nat.zero_le j, hj, hin'⟩
      cleared := fun _ _ hj => absurd hj (Nat.not_lt_zero _)
      spaces := fun j => by simp }
  have hlength := ho.liesOver.length_eq
  refine (runs_forM_range (fun n h' => ∃ old', h.ClearedTo h' n old' zones) ⟨old, hzero⟩
    fun n h' hn hcleared => ?_).mono
    fun _ h' => ?_
  · obtain ⟨old', hc⟩ := hcleared
    exact hc.next_runs (by rw [hc.orderly.liesOver.length_eq, ← hlength]; exact hn)
  · rintro ⟨old', hc⟩
    have hnil : old' = [] := List.eq_nil_iff_forall_not_mem.2 fun o hin => by
      obtain ⟨j, z, hj, hz, _⟩ := hc.rest o hin
      have := (List.getElem?_eq_some_iff.1 hz).1
      omega
    subst hnil
    have hm := hc.orderly
    have hblank : ∀ z ∈ zones, ∀ r, z.first ≤ r → r < z.last → h'.table.regions.get r = {} :=
      fun z hz => by
      obtain ⟨j, hj⟩ := List.mem_iff_getElem?.1 hz
      exact hc.cleared j z (hlength ▸ (List.getElem?_eq_some_iff.1 hj).1) hj
    refine ⟨⟨hm.consistent, hm.spaces_over, hm.ordered, hm.keep_eq, hm.apart,
      fun _ hin => absurd hin List.not_mem_nil, hblank, hm.outside⟩, hc.frame, hc.shape,
      List.ext_getElem? fun j => ?_⟩
    rw [hc.spaces j, List.getElem?_map]
    cases hj : h.spaces[j]? with
    | none => rfl
    | some s => rw [Option.map_some, Option.map_some, if_pos (List.getElem?_eq_some_iff.1 hj).1]

end Heap

end MarkCompact
