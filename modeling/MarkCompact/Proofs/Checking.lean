import MarkCompact.Collector
import MarkCompact.Proofs.Roots
import MarkCompact.Proofs.Tiles

/-!
# Checking the result

A cycle can check what it has done: that destinations are completed and the regions above them
released, and that each space is filled with objects whose starts are recorded.  A heap in which the
plan has been carried out passes.

Main statements: `checkResult_runs` and `moveTops_runs`.
-/

namespace MarkCompact

variable {p : Plan} {o : Span} {z : Zone} {i r x : ℕ} {tiles : List Span}

/-! ## Recorded block offsets -/

namespace Plan.Compacted

variable {h : Heap MemoryImage} (hc : p.Compacted h)
include hc

/-- Recorded block offsets do not matter. -/
lemma refill {t : RegionTable} (hrefilled : RegionTable.Refilled p.objs h.table t) :
    p.Compacted { h with table := t } where
  serves := hc.serves.advance hrefilled.advances rfl rfl rfl hc.serves.spaces
  backs := hc.backs
  placed := hc.placed
  filled := hc.filled
  still := hc.still
  starts := hc.starts
  completed z hz r h1 h2 := by
    show (t.regions.get r).isCompleted = true ↔ _
    rw [hrefilled.regions r]
    exact hc.completed z hz r h1 h2
  drained z hz r h1 h2 hr := by
    show (t.regions.get r).count = 0
    rw [hrefilled.regions r]
    exact hc.drained z hz r h1 h2 hr
  updates := hc.updates

/-- What is reported does not matter. -/
lemma withLog (log : List LogRecord) : p.Compacted { h with log } :=
  { hc with serves := hc.serves.withLog log }

end Plan.Compacted

namespace Heap

/-! ## Checks over regions and objects -/

lemma checkCompleted_eq {t : RegionTable} {name : String} {count : ℕ}
    (hall : ∀ x, r ≤ x → x < r + count → x < t.geometry.regionCount
      ∧ (t.regions.get x).isCompleted = true) :
    checkCompleted t name count r = .ok () := by
  induction count generalizing r with
  | zero => rfl
  | succ count ih =>
    obtain ⟨hlt, hcompleted⟩ := hall r le_rfl (by omega)
    rw [checkCompleted, RegionTable.Laid.region_eq hlt, ok_bind, hcompleted]
    exact ih fun x h1 h2 => hall x (by omega) (by omega)

lemma checkDrained_eq {t : RegionTable} {name : String} {count : ℕ}
    (hall : ∀ x, r ≤ x → x < r + count → x < t.geometry.regionCount
      ∧ (t.regions.get x).isAvailable = true) :
    checkDrained t name count r = .ok () := by
  induction count generalizing r with
  | zero => rfl
  | succ count ih =>
    obtain ⟨hlt, havailable⟩ := hall r le_rfl (by omega)
    rw [checkDrained, RegionTable.Laid.region_eq hlt, ok_bind, havailable]
    exact ih fun x h1 h2 => hall x (by omega) (by omega)

/-- Walking over tiles whose starts are recorded ends at the new top. -/
lemma checkParsable_eq {objectWords : ℕ → ℕ} {s : Space} {e : Extent} {a c n : ℕ}
    (htiling : Tiling a tiles c) (htop : s.newTop = e.addr c)
    (hsize : ∀ o ∈ tiles, objectWords (e.addr o.start) = o.words)
    (hstart : ∀ o ∈ tiles, s.starts.objectStart objectWords (e.addr o.start) = .ok (e.addr o.start))
    (htries : c - a < n) :
    checkParsable objectWords s n (e.addr a) = .ok () := by
  induction htiling generalizing n with
  | nil a =>
    obtain ⟨n, rfl⟩ : ∃ k, n = k + 1 := ⟨n - 1, by omega⟩
    rw [checkParsable, htop, if_pos le_rfl, if_pos rfl]
    rfl
  | @cons c o rest pos next ih =>
    obtain ⟨n, rfl⟩ : ∃ k, n = k + 1 := ⟨n - 1, by omega⟩
    have hle := next.le
    have hpast : o.past = o.start + o.words := rfl
    have hnext : e.addr o.start + bytesPerWord * o.words = e.addr o.past :=
      e.addr_add o.start o.words
    rw [checkParsable, htop, if_neg (by rw [Extent.addr_le_addr]; omega),
      hstart o List.mem_cons_self, ok_bind, if_neg (not_not.2 rfl),
      hsize o List.mem_cons_self, hnext]
    exact ih htop (fun o' ho' => hsize o' (List.mem_cons_of_mem _ ho'))
      (fun o' ho' => hstart o' (List.mem_cons_of_mem _ ho'))
      (by omega)

/-! ## One space -/

end Heap

namespace Plan.Compacted

variable {h : Heap MemoryImage} {s : Space} (hc : p.Compacted h) (hp : p.FitsMemory)
  (hsound : p.Sound) (hz : p.zones[i]? = some z) (hs : h.spaces[i]? = some s)
  (hmatches : s.Matches p.covered p.regionWords p.objs z)
include hc hp hsound hz hs hmatches

/-- The tile around any address below the new top is found. -/
theorem objectStart_eq {d : ℕ} (hd : d < 8) (h1 : z.first * p.regionWords ≤ x)
    (h2 : x < z.newTop p.regionWords p.objs) :
    ∃ o, p.Tile o ∧ o.Covers x
      ∧ s.starts.objectStart h.image.objectWords (p.covered.addr x + d)
        = .ok (p.covered.addr o.start) := by
  have hmem := List.mem_of_getElem? hz
  have hord := hp.ordered z hmem
  have htop := hord.newTop_le p.objs
  have hlast := hord.top_le_last
  obtain ⟨tiles, htiling, htiles⟩ := hp.toValid.tiling hmem
  have hrecords := (hc.starts s (List.mem_of_getElem? hs)).records
  have hcovers := hmatches.starts
  -- Recorded starts lie in the range of the table, so they are those of tiles of this zone.
  have hof : s.starts.Records p.covered (Starts tiles) := fun card start hfound => by
    obtain ⟨i, rfl, hfinal, hcard⟩ :=
      (hc.starts s (List.mem_of_getElem? hs)).sound card start hfound
    obtain ⟨o, ho, rfl⟩ := finalStart_iff.1 hfinal
    exact ⟨o.start, rfl, o, (htiles o).2 ⟨ho, hcovers.of_cardOf_eq hcard⟩, rfl⟩
  obtain ⟨o, ho, hcov, heq⟩ := StartTable.objectStart_eq hd hcovers.includes htiling (by omega)
    (fun o ho => hc.objectWords_eq hp hsound ((htiles o).1 ho).1) hof h1 h2
  exact ⟨o, ((htiles o).1 ho).1, hcov, heq⟩

omit hp hsound hz hs hmatches in
lemma regionUpTo_addr (hx : x ≤ p.covered.words) :
    h.table.regionUpTo (p.covered.addr x) = .ok (upTo p.regionWords x) := by
  have ht := hc.serves.loaded
  have heq := ht.laid.regionUpTo_addr (i := x) (by rw [ht.covered]; exact hx)
  rwa [ht.covered, ht.regionWords_eq] at heq

omit hsound hs hmatches in
/-- The regions below the new top are completed. -/
lemma checkCompleted_eq (name : String) : Heap.checkCompleted h.table name
    (upTo p.regionWords (z.newTop p.regionWords p.objs) - z.first) z.first = .ok () := by
  have hmem := List.mem_of_getElem? hz
  have hord := hp.ordered z hmem
  have hW := p.regionWords_pos
  have hlast : upTo p.regionWords (z.newTop p.regionWords p.objs) ≤ z.last :=
    (upTo_le_iff hW).2 (le_trans (hord.newTop_le p.objs) hord.top_le_last)
  refine Heap.checkCompleted_eq fun x h1 h2 => ?_
  have hup : x < upTo p.regionWords (z.newTop p.regionWords p.objs) := by omega
  have hlt : x < z.last := lt_of_lt_of_le hup hlast
  refine ⟨hc.serves.loaded.region_lt hp.toValid hmem hlt, (hc.completed z hmem x h1 hlt).2 ?_⟩
  by_cases hin : x < z.keep
  · exact Or.inl ⟨z, hmem, h1, hin⟩
  · exact Or.inr ⟨z, hmem, not_lt.1 hin, (lt_upTo_iff hW).1 hup⟩

omit hsound hs hmatches in
/-- Nothing is owed from the regions behind the new top. -/
lemma checkDrained_eq (name : String) : Heap.checkDrained h.table name
    (upTo p.regionWords z.top - upTo p.regionWords (z.newTop p.regionWords p.objs))
    (upTo p.regionWords (z.newTop p.regionWords p.objs)) = .ok () := by
  have hvalid := hp.toValid
  have hmem := List.mem_of_getElem? hz
  have hord := hp.ordered z hmem
  have hW := p.regionWords_pos
  have hkeep : z.keep ≤ upTo p.regionWords (z.newTop p.regionWords p.objs) := by
    rw [← upTo_mul hW z.keep]
    exact upTo_mono hW (z.le_packed ..)
  have hlast : upTo p.regionWords z.top ≤ z.last := (upTo_le_iff hW).2 hord.top_le_last
  refine Heap.checkDrained_eq fun x h1 h2 => ?_
  have hlt : x < z.last := by omega
  refine ⟨hc.serves.loaded.region_lt hvalid hmem hlt,
    Region.isAvailable_iff.2 (hc.drained z hmem x (le_trans hkeep h1) hlt ?_)⟩
  rintro ⟨z', hz', hreceives⟩
  obtain rfl := hvalid.eq_of_region hmem hz' (le_trans (le_trans hord.first_le_keep hkeep) h1) hlt
    (le_trans (hp.ordered z' hz').first_le_keep hreceives.1) (hreceives.lt_last (hp.ordered z' hz'))
  exact absurd ((lt_upTo_iff hW).2 hreceives.2) (not_lt.2 h1)

/-- The tiles of the space lie one behind the other, and each is found from its start. -/
lemma checkParsable_eq :
    Heap.checkParsable h.image.objectWords s (s.newTop - s.bottom + 1) s.bottom = .ok () := by
  have hvalid := hp.toValid
  obtain ⟨tiles, htiling, htiles⟩ := hvalid.tiling (List.mem_of_getElem? hz)
  rw [hmatches.bottom]
  refine Heap.checkParsable_eq htiling hmatches.newTop
    (fun o ho => hc.objectWords_eq hp hsound ((htiles o).1 ho).1) (fun o ho => ?_) ?_
  · have hbounds := htiling.bounds ho
    have hlt := htiling.separate.start_lt_past ho
    obtain ⟨o', ho', hcov, heq⟩ :=
      hc.objectStart_eq hp hsound hz hs hmatches (by decide : 0 < 8) hbounds.1 (by omega)
    rwa [hvalid.tile_eq_of_covers ho' ((htiles o).1 ho).1 hcov ⟨le_rfl, hlt⟩] at heq
  · rw [hmatches.newTop, Extent.addr_eq, Extent.addr_eq, ← Zone.newTop]
    omega

/-- A space passes the check. -/
lemma checkSpaceResult_eq : h.checkSpaceResult s (z.top - z.first * p.regionWords) = .ok () := by
  have hord := hp.ordered z (List.mem_of_getElem? hz)
  have htop := hord.newTop_le p.objs
  have hlast := hord.top_le_last
  have hwords := hord.last_le
  have hfirst := hord.first_le_top
  have ht := hc.serves.loaded
  have hregion : h.table.regionOf s.bottom = .ok z.first := by
    have heq := ht.laid.regionOf_addr (i := z.first * p.regionWords) (by rw [ht.covered]; omega)
    rwa [ht.covered, ht.regionWords_eq, Nat.mul_div_cancel _ p.regionWords_pos,
      ← hmatches.bottom] at heq
  have hnewTop : h.table.regionUpTo s.newTop
      = .ok (upTo p.regionWords (z.newTop p.regionWords p.objs)) := by
    rw [hmatches.newTop]
    exact hc.regionUpTo_addr (x := z.newTop p.regionWords p.objs) (by omega)
  have holdTop : s.bottom + bytesPerWord * (z.top - z.first * p.regionWords)
      = p.covered.addr z.top := by
    rw [hmatches.bottom, Extent.addr_add, Nat.add_sub_cancel' hfirst]
  rw [Heap.checkSpaceResult, holdTop, hregion, ok_bind, hnewTop, ok_bind,
    hc.regionUpTo_addr (by omega), ok_bind, hc.checkCompleted_eq hp hz, ok_bind,
    hc.checkDrained_eq hp hz, ok_bind]
  exact hc.checkParsable_eq hp hsound hz hs hmatches

end Plan.Compacted

/-! ## All spaces -/

namespace Heap

variable {h : Heap MemoryImage}

/-- Checks of members of a list change nothing if they all succeed. -/
lemma runs_forM_check {μ α : Type} {h : Heap μ} {f : α → Except Fault PUnit} {xs : List α}
    {post : PUnit → Heap μ → Prop} (hall : ∀ x ∈ xs, f x = .ok ⟨⟩) (hpost : post ⟨⟩ h) :
    Runs (xs.forM fun x => check (f x)) h post := by
  induction xs with
  | nil => exact runs_forM_nil.2 hpost
  | cons x rest ih =>
    rw [runs_forM_cons, hall x List.mem_cons_self, runs_check_ok]
    exact ih fun y hy => hall y (List.mem_cons_of_mem _ hy)

/-- A heap in which the plan has been carried out passes the check. -/
theorem checkResult_runs (hc : p.Compacted h) (hp : p.FitsMemory) (hsound : p.Sound) {used : List ℕ}
    (hused : used = p.zones.map fun z => z.top - z.first * p.regionWords) :
    Runs (checkResult used) h fun _ h' => ∃ log, h' = { h with log } := by
  rw [checkResult, runs_bind, runs_get, runs_bind]
  refine runs_forM_check (f := fun q : Space × ℕ => h.checkSpaceResult q.1 q.2) (fun q hq => ?_)
    (runs_report.2 ⟨_, rfl⟩)
  obtain ⟨i, hi⟩ := List.mem_iff_getElem?.1 hq
  rw [hused, List.getElem?_zip_eq_some, List.getElem?_map] at hi
  obtain ⟨hspace, hword⟩ := hi
  obtain ⟨z, hz, heq⟩ := Option.map_eq_some_iff.1 hword
  obtain ⟨z', hz', hmatches⟩ := hc.serves.exists_zone hspace
  cases hz.symm.trans hz'
  rw [← heq]
  exact hc.checkSpaceResult_eq hp hsound hz hspace hmatches

end Heap

/-- The space with its top at the new top. -/
def Space.settled (s : Space) : Space :=
  { s with top := s.newTop }

/-- A function that succeeds on all members of a list succeeds on the list. -/
lemma mapM_eq_map {α β : Type} {f : α → Except Fault β} {g : α → β} {xs : List α}
    (hall : ∀ x ∈ xs, f x = .ok (g x)) :
    xs.mapM f = .ok (xs.map g) := by
  induction xs with
  | nil => rfl
  | cons x rest ih =>
    rw [List.mapM_cons, hall x List.mem_cons_self, ok_bind,
      ih fun y hy => hall y (List.mem_cons_of_mem _ hy), ok_bind]
    rfl

namespace Heap

/-- The tops can be moved to the new tops. -/
theorem moveTops_runs {μ : Type} {h : Heap μ} (hs : p.Serves h) (hp : p.Valid) :
    Runs moveTops h fun _ h' => h' = { h with spaces := h.spaces.map Space.settled } := by
  have hmapM : h.spaces.mapM (fun s => s.setTop s.newTop) = .ok (h.spaces.map Space.settled) :=
    mapM_eq_map fun s hmem => by
    obtain ⟨i, hi⟩ := List.mem_iff_getElem?.1 hmem
    obtain ⟨z, hz, hmatches⟩ := hs.exists_zone hi
    have hord := hp.ordered z (List.mem_of_getElem? hz)
    have htop := hord.newTop_le p.objs
    have hlast := hord.top_le_last
    have hfirst := Nat.mul_le_mul_right p.regionWords hord.first_le_keep
    have hkeep : z.keep * p.regionWords ≤ z.newTop p.regionWords p.objs := z.le_packed ..
    rw [Space.setTop, if_pos]
    · rfl
    · rw [hmatches.bottom, hmatches.newTop, hmatches.limit, Extent.addr_le_addr,
        Extent.addr_le_addr, ← Zone.newTop]
      omega
  rw [moveTops, runs_bind, runs_get, hmapM, runs_bind, runs_check_ok, runs_set]

end Heap

end MarkCompact
