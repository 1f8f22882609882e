import MarkCompact.Proofs.Forwarding
import MarkCompact.Proofs.PrefixEnd

/-!
# The plan of a space

`t.Planned objs z` is what the table holds once a space has been planned around its dense prefix:
the regions of the prefix stay, every other region is packed behind the prefix, counts the other
regions that its data goes to and, if the packed data covers its start, knows where that word comes
from.

Main statements: `packSpace_runs`, `planAround_leads` (planning around any boundary establishes
`Planned`), `Planned.sends` (a planned region forwards its live words as `Zone.forward` says).
-/

namespace MarkCompact

variable {objs : List Span} {W q r w : ℕ} {z : Zone}

namespace Zone

/-- The number of other regions that the data of region `r` goes to. -/
def touched (z : Zone) (W : ℕ) (objs : List Span) (r : ℕ) : ℕ :=
  if dataOf objs W r = 0 then 0
  else RegionTable.otherRegions r (z.packed W objs (r * W) / W)
    ((z.packed W objs ((r + 1) * W) - 1) / W)

/-- The dense prefix of the zone ends with an object: `objs'` are the objects and, if dead space
crossed the end of the prefix, a filler. -/
inductive EndFilled (z : Zone) (W minimum : ℕ) (objs : List Span) : List Span → Prop
  | whole (h : z.first < z.keep → ¬CrossedByDead objs (z.keep * W)) :
      EndFilled z W minimum objs objs
  | filled (o : Span) (h : z.first < z.keep)
      (filler : Filler objs (z.first * W) (z.keep * W) z.top minimum o) :
      EndFilled z W minimum objs (o :: objs)

/-- A filler lies in the zone. -/
lemma EndFilled.bounds {minimum : ℕ} {objs' : List Span} (h : z.EndFilled W minimum objs objs')
    (hbounds : z.Bounds W objs) : z.Bounds W objs' := by
  cases h with
  | whole _ => exact hbounds
  | filled o _ filler => exact hbounds.cons filler.holds

end Zone

namespace RegionTable

variable {t t' : RegionTable}

/-- The regions from `lo` up to, not including, `hi` account for the objects and have not been used
in this cycle. -/
structure Accounted (t : RegionTable) (objs : List Span) (lo hi : ℕ) : Prop where
  accounts : ∀ r, lo ≤ r → r < hi → (t.regions.get r).Accounts objs t.geometry.regionWords r
  uncounted : ∀ r, lo ≤ r → r < hi → dataOf objs t.geometry.regionWords r = 0 →
    (t.regions.get r).count = 0
  deferred : ∀ r, lo ≤ r → r < hi → (t.regions.get r).deferred = 0
  blocksFilled : ∀ r, lo ≤ r → r < hi → (t.regions.get r).blocksFilled = false
  pushed : ∀ r, lo ≤ r → r < hi → (t.regions.get r).pushed = false

/-- Region `r` of a dense prefix has been planned. -/
structure Stays (t : RegionTable) (objs : List Span) (r : ℕ) : Prop where
  partial_eq : (t.regions.get r).partialWords = partialOf objs t.geometry.regionWords r
  full : (t.regions.get r).dataWords = t.geometry.regionWords
  destination : (t.regions.get r).destination = t.covered.addr (r * t.geometry.regionWords)
  count : (t.regions.get r).count = 0
  deferred : (t.regions.get r).deferred = 0
  blocksFilled : (t.regions.get r).blocksFilled = false
  pushed : (t.regions.get r).pushed = false

/-- The regions of the zone are planned: those of the prefix stay, the others are packed behind
it. -/
structure Planned (t : RegionTable) (objs : List Span) (z : Zone) : Prop where
  stays : ∀ r, z.first ≤ r → r < z.keep → t.Stays objs r
  accounted : t.Accounted objs z.keep z.last
  destination : ∀ r, z.keep ≤ r → r < upTo t.geometry.regionWords z.top →
    (t.regions.get r).destination
    = t.covered.addr (z.packed t.geometry.regionWords objs (r * t.geometry.regionWords))
  count : ∀ r, z.keep ≤ r → r < z.last →
    (t.regions.get r).count = z.touched t.geometry.regionWords objs r
  source : ∀ q r, z.keep ≤ q → q < upTo t.geometry.regionWords z.top → r < z.last →
    z.packed t.geometry.regionWords objs (q * t.geometry.regionWords) ≤ r * t.geometry.regionWords →
    r * t.geometry.regionWords < z.packed t.geometry.regionWords objs
      ((q + 1) * t.geometry.regionWords) →
    (t.regions.get r).source = q

/-- A planned region forwards its live words. -/
theorem Planned.sends (h : t.Planned objs z) (hz : z.Ordered t.geometry.regionWords t.covered.words)
    (hfirst : z.first ≤ r) (htop : r < upTo t.geometry.regionWords z.top) :
    t.Sends objs (z.forward t.geometry.regionWords objs) r := by
  have hlast : r < z.last :=
    lt_of_lt_of_le htop ((upTo_le_iff t.geometry.regionWords_pos).2 hz.top_le_last)
  by_cases hkeep : r < z.keep
  · have hstays := h.stays r hfirst hkeep
    refine .kept hstays.partial_eq hstays.full hstays.destination fun w h1 h2 _ => ?_
    have hle := Nat.mul_le_mul_right t.geometry.regionWords (show r + 1 ≤ z.keep from hkeep)
    rw [Nat.succ_mul] at hle
    rw [Zone.forward, if_pos (by omega)]
  · have hle := Nat.mul_le_mul_right t.geometry.regionWords (not_lt.1 hkeep)
    refine .moved _ (h.accounted.accounts r (not_lt.1 hkeep) hlast)
      (h.destination r (not_lt.1 hkeep) htop) (Zone.packed_le hle) fun w h1 h2 _ => ?_
    rw [Zone.forward, if_neg (by omega), Zone.packed_add hle h1]

/-- The data of accounted regions follows one another. -/
lemma consecutive_packed (h : ∀ r, z.keep ≤ r → r < z.last →
      (t.regions.get r).Accounts objs t.geometry.regionWords r)
    (hz : z.Ordered t.geometry.regionWords t.covered.words) :
    t.Consecutive (fun r => z.packed t.geometry.regionWords objs
      (r * t.geometry.regionWords)) z.keep
      (upTo t.geometry.regionWords z.top) := by
  have hlast := (upTo_le_iff t.geometry.regionWords_pos).2 hz.top_le_last
  refine ⟨fun r h1 h2 => ?_, fun r h1 h2 => ?_⟩
  · have hsum := liveBelow_add_dataOf objs t.geometry.regionWords r
    have hle := Nat.mul_le_mul_right t.geometry.regionWords h1
    rw [(h r h1 (by omega)).data_eq,
      Zone.packed_add hle (Nat.mul_le_mul_right _ (show r ≤ r + 1 from Nat.le_succ r))]
    omega
  · rw [(h r h1 (by omega)).data_eq]
    exact dataOf_le ..

/-- The data of region `r` is empty exactly if its destination has no words. -/
lemma packed_lt_packed_iff (hr : z.keep ≤ r) :
    z.packed W objs (r * W) < z.packed W objs ((r + 1) * W)
    ↔ dataOf objs W r ≠ 0 := by
  have hsum := liveBelow_add_dataOf objs W r
  have hle := Nat.mul_le_mul_right W hr
  rw [Zone.packed_add hle (Nat.mul_le_mul_right _ (show r ≤ r + 1 from Nat.le_succ r))]
  omega

/-- Packing keeps what regions account for. -/
lemma Packed.accounted {lo hi : ℕ}
    (h : t.Packed t' (fun r => z.packed t.geometry.regionWords objs (r * t.geometry.regionWords))
      z.keep (upTo t.geometry.regionWords z.top)) (hacc : t.Accounted objs lo hi)
    (hhi : hi ≤ t.geometry.regionCount) : t'.Accounted objs lo hi := by
  have hgeometry := h.shape.geometry
  have hsizes := fun r (hr : r < hi) => h.sizes r (lt_of_lt_of_le hr hhi)
  refine ⟨fun r h1 h2 => ?_, fun r h1 h2 hdata => ?_, fun r h1 h2 => ?_, fun r h1 h2 => ?_,
    fun r h1 h2 => ?_⟩
  · have hold := hacc.accounts r h1 h2
    rw [hgeometry]
    exact ⟨(hsizes r h2).partialWords.trans hold.partial_eq,
      (hsizes r h2).dataWords.trans hold.data_eq⟩
  · rw [hgeometry] at hdata
    rw [h.count_other r (lt_of_lt_of_le h2 hhi), hacc.uncounted r h1 h2 hdata]
    rintro ⟨_, _, hlt⟩
    exact (packed_lt_packed_iff (by omega)).1 hlt hdata
  · rw [(hsizes r h2).deferred, hacc.deferred r h1 h2]
  · rw [(hsizes r h2).blocksFilled, hacc.blocksFilled r h1 h2]
  · rw [(hsizes r h2).pushed, hacc.pushed r h1 h2]

/-- Packing behind a prefix whose regions stay plans the zone. -/
theorem Packed.planned
    (h : t.Packed t' (fun r => z.packed t.geometry.regionWords objs (r * t.geometry.regionWords))
      z.keep (upTo t.geometry.regionWords z.top)) (ht : t.Laid)
    (hz : z.Ordered t.geometry.regionWords t.covered.words)
    (hbounds : z.Bounds t.geometry.regionWords objs)
    (hstays : ∀ r, z.first ≤ r → r < z.keep → t.Stays objs r)
    (hacc : t.Accounted objs z.keep z.last) :
    t'.Planned objs z := by
  have hW := t.geometry.regionWords_pos
  have hgeometry := h.shape.geometry
  have hlast : z.last ≤ t.geometry.regionCount := by
    have := hz.last_le
    rw [ht.covered_words] at this
    exact Nat.le_of_mul_le_mul_right this hW
  have hupTo := (upTo_le_iff hW).2 hz.top_le_last
  have hkeep := hz.keep_le_top
  have hkeepLast : z.keep ≤ z.last := Nat.le_of_mul_le_mul_right (le_trans hkeep hz.top_le_last) hW
  refine ⟨fun r h1 h2 => ?_, h.accounted hacc hlast, fun r h1 h2 => ?_, fun r h1 h2 => ?_,
    fun q r h1 h2 hr hlow hhigh => ?_⟩
  · have hold := hstays r h1 h2
    have hsizes := h.sizes r (by omega)
    exact ⟨by rw [hsizes.partialWords, hgeometry, hold.partial_eq],
      by rw [hsizes.dataWords, hgeometry, hold.full],
      by
        rw [h.destination_other r (by omega) (by omega), hgeometry, h.shape.covered,
          hold.destination],
      by rw [h.count_other r (by omega) (by omega), hold.count],
      by rw [hsizes.deferred, hold.deferred],
      by rw [hsizes.blocksFilled, hold.blocksFilled], by rw [hsizes.pushed, hold.pushed]⟩
  · rw [hgeometry] at h2 ⊢
    rw [h.destination r h1 h2, h.shape.covered]
  · rw [hgeometry, Zone.touched]
    by_cases hdata : dataOf objs t.geometry.regionWords r = 0
    · rw [if_pos hdata, h.count_other r (by omega), hacc.uncounted r h1 h2 hdata]
      rintro ⟨_, _, hlt⟩
      exact (packed_lt_packed_iff h1).1 hlt hdata
    · have hin : r < upTo t.geometry.regionWords z.top := by
        obtain ⟨w, hw1, hw2, hlive⟩ := exists_live_of_dataOf_pos (Nat.pos_of_ne_zero hdata)
        have hle := Nat.mul_le_mul_right t.geometry.regionWords (show r + 1 ≤ z.last from h2)
        rw [Nat.succ_mul] at hle
        have htop := hbounds.mem_top_of_live hlive (by omega) hz
        exact (lt_upTo_iff hW).2 (by omega)
      rw [if_neg hdata, h.count r h1 hin ((packed_lt_packed_iff h1).2 hdata)]
  · rw [hgeometry] at h2 hlow hhigh
    exact h.source q r h1 h2 (by omega) hlow hhigh

/-- Accounting the filler keeps the accounts. -/
lemma Accounted.addFiller {lo hi : ℕ} {o : Span} {addr : ℕ} (h : t.Accounted objs lo hi)
    (ht : t.Laid) (hshape : t.SameShape t') (hsep : Separate (o :: objs))
    (hget : ∀ r, t'.regions.get r
      = (t.regions.get r).account t.geometry.regionWords addr o r) :
        t'.Accounted (o :: objs) lo hi := by
  have hW := t.geometry.regionWords_pos
  have hgeometry := hshape.geometry
  have hsame := fun r => (t.regions.get r).samePlan_account t.geometry.regionWords addr o r
  refine ⟨fun r h1 h2 => ?_, fun r h1 h2 hdata => ?_, fun r h1 h2 => ?_, fun r h1 h2 => ?_,
    fun r h1 h2 => ?_⟩
  · rw [hget, hgeometry]
    exact (h.accounts r h1 h2).account addr hsep hW ht.regionWords_lt
  · rw [hget, Region.count_account (h.accounts r h1 h2) hsep ht.regionWords_lt]
    refine h.uncounted r h1 h2 ?_
    have hlow := liveBelow_cons hsep (r * t.geometry.regionWords)
    have hhigh := liveBelow_cons hsep (r * t.geometry.regionWords + t.geometry.regionWords)
    rw [hgeometry, dataOf] at hdata
    rw [dataOf]
    omega
  · rw [hget, (hsame r).deferred, h.deferred r h1 h2]
  · rw [hget, (hsame r).blocksFilled, h.blocksFilled r h1 h2]
  · rw [hget, (hsame r).pushed, h.pushed r h1 h2]

/-- Regions that are kept in place stay. -/
lemma Kept.stays {first last : ℕ} (h : t.Kept t' first last) (ht : t.Laid)
    (hacc : t.Accounted objs first last) (h1 : first ≤ r) (h2 : r < last) : t'.Stays objs r := by
  have hlimit := ht.regionWords_lt
  have hpartial := partialOf_le objs t.geometry.regionWords r
  have hold := (hacc.accounts r h1 h2).partial_eq
  have hstate : t.geometry.regionWords - (t.regions.get r).partialWords < liveLimit := by omega
  have hdeferred := hacc.deferred r h1 h2
  have hblocks := hacc.blocksFilled r h1 h2
  have hpushed := hacc.pushed r h1 h2
  refine ⟨?_, ?_, ?_, ?_, ?_, ?_, ?_⟩ <;> rw [h.kept r h1 h2] <;> simp only [h.shape.geometry,
    h.shape.covered]
  · exact hold
  · rw [Region.dataWords, Region.liveWords, Nat.mod_eq_of_lt hstate]
    simp only [hold]
    omega
  · rw [Region.count]
    exact Nat.div_eq_of_lt hstate
  · exact hdeferred
  · exact hblocks
  · exact hpushed

/-- Keeping other regions in place keeps the accounts. -/
lemma Kept.accounted {first last hi : ℕ} (h : t.Kept t' first last)
    (hacc : t.Accounted objs last hi) :
    t'.Accounted objs last hi := by
  have hsame := fun r (hr : last ≤ r) => h.other r (show ¬(first ≤ r ∧ r < last) by omega)
  refine ⟨fun r h1 h2 => ?_, fun r h1 h2 => ?_, fun r h1 h2 => ?_, fun r h1 h2 => ?_,
    fun r h1 h2 => ?_⟩ <;>
    rw [hsame r h1]
  · rw [h.shape.geometry]
    exact hacc.accounts r h1 h2
  · rw [h.shape.geometry]
    exact hacc.uncounted r h1 h2
  · exact hacc.deferred r h1 h2
  · exact hacc.blocksFilled r h1 h2
  · exact hacc.pushed r h1 h2

lemma Accounted.sub {lo lo' hi hi' : ℕ} (h : t.Accounted objs lo hi) (hlo : lo ≤ lo')
    (hhi : hi' ≤ hi) :
    t.Accounted objs lo' hi' :=
  ⟨fun r h1 h2 => h.accounts r (by omega) (by omega),
    fun r h1 h2 => h.uncounted r (by omega) (by omega),
    fun r h1 h2 => h.deferred r (by omega) (by omega), fun r h1 h2 =>
      h.blocksFilled r (by omega) (by omega),
    fun r h1 h2 => h.pushed r (by omega) (by omega)⟩

end RegionTable

/-! ## The steps of planning a space -/

namespace Heap

variable {μ : Type} {h : Heap μ} {s : Space} {i : ℕ}

/-- A space is packed from region `keep` of the zone on; other spaces keep their regions. -/
theorem packSpace_runs (hc : h.Consistent objs) (hspace : h.spaces[i]? = some s)
    (hs : s.Over h.table.covered h.table.geometry.regionWords z)
    (hz : z.Ordered h.table.geometry.regionWords h.table.covered.words)
    (hbounds : z.Bounds h.table.geometry.regionWords objs)
    (hstays : ∀ r, z.first ≤ r → r < z.keep → h.table.Stays objs r)
    (hacc : h.table.Accounted objs z.keep z.last) :
    Runs (packSpace i (h.table.covered.addr (z.keep * h.table.geometry.regionWords))) h fun _ h' =>
      ∃ t' log, h' = { h with
          table := t'
          spaces := h.spaces.set i { s with
            newTop := h.table.covered.addr (z.packed h.table.geometry.regionWords objs z.top) }
          log }
        ∧ h.table.SameShape t' ∧ t'.blocks = h.table.blocks ∧ t'.Planned objs z
        ∧ ∀ r, r < h.table.geometry.regionCount → ¬(z.first ≤ r ∧ r < z.last) →
          t'.regions.get r = h.table.regions.get r := by
  have hW := h.table.geometry.regionWords_pos
  have hlast := hz.top_le_last
  have hwords := hz.last_le
  have hkeep := hz.keep_le_top
  have hfirst := Nat.mul_le_mul_right h.table.geometry.regionWords hz.first_le_keep
  have hdiv : z.keep * h.table.geometry.regionWords / h.table.geometry.regionWords = z.keep :=
    Nat.mul_div_cancel _ hW
  have hupTo := le_upTo_mul hW z.top
  have hupToLast := Nat.mul_le_mul_right h.table.geometry.regionWords ((upTo_le_iff hW).2 hlast)
  have hnewTop := z.packed_top hbounds hz hupTo hupToLast
  have hle : z.packed h.table.geometry.regionWords objs z.top ≤ z.top := Zone.packed_le hkeep
  have hge := z.le_packed h.table.geometry.regionWords objs z.top
  obtain ⟨t', heq, hpacked⟩ := RegionTable.summarize_eq
    (fun r => z.packed h.table.geometry.regionWords objs (r * h.table.geometry.regionWords)) hc.laid
    (by rw [hdiv]; exact RegionTable.consecutive_packed hacc.accounts hz) hkeep (by omega) hwords
    (by rw [hdiv, Zone.packed_keep]) (by rw [hnewTop]; omega)
  rw [hdiv] at hpacked
  rw [hnewTop, ← hs.limit, ← hs.top] at heq
  have hset : s.setNewTop (h.table.covered.addr (z.packed h.table.geometry.regionWords objs z.top))
      = .ok { s with
        newTop := h.table.covered.addr (z.packed h.table.geometry.regionWords objs z.top) } := by
    rw [Space.setNewTop, hs.bottom, hs.top, if_pos (by simp only [Extent.addr_le_addr]; omega)]
    rfl
  simp only [packSpace, runs_bind, runs_get, space_eq hspace, runs_check_ok, runs_report, heq,
    runs_modify]
  refine (runs_onSpace ?_ hset).2 ⟨t', _, rfl, hpacked.shape, hpacked.blocks,
    hpacked.planned hc.laid hz hbounds hstays hacc, fun r hr hout =>
      hpacked.get_other hr (fun hin => hout ?_) ?_⟩
  · exact hspace
  · exact ⟨le_trans hz.first_le_keep hin.1, lt_of_lt_of_le hin.2 ((upTo_le_iff hW).2 hlast)⟩
  · -- The packed data lies in the zone.
    rintro q hq1 hq2 ⟨hlow, hhigh⟩
    have hmono := z.packed_mono h.table.geometry.regionWords objs
      (Nat.mul_le_mul_right h.table.geometry.regionWords (show q + 1 ≤ _ from hq2))
    have hqlow := z.le_packed h.table.geometry.regionWords objs (q * h.table.geometry.regionWords)
    refine hout ⟨Nat.le_of_mul_le_mul_right (by omega : _ * h.table.geometry.regionWords ≤ _) hW,
      ?_⟩
    exact lt_of_mul_lt_mul_right
      (show r * h.table.geometry.regionWords < z.last * h.table.geometry.regionWords by omega)
      (Nat.zero_le _)

/-- The heap `h'` is `h` with space `i` planned as the zone, for the objects `objs'`. -/
structure PlannedAs [ObjectModel μ] (h h' : Heap μ) (i : ℕ) (s : Space) (objs objs' : List Span)
    (z : Zone) : Prop where
  covered : h'.covered = h.covered
  geometry : h'.geometry = h.geometry
  updates : h'.updates = h.updates
  consistent : h'.Consistent objs'
  shape : h.table.SameShape h'.table
  blocks : h'.table.blocks = h.table.blocks
  planned : h'.table.Planned objs' z
  other : ∀ r, r < h.table.geometry.regionCount → ¬(z.first ≤ r ∧ r < z.last) →
    h'.table.regions.get r = h.table.regions.get r
  filled : z.EndFilled h.table.geometry.regionWords (ObjectModel.minimumWords h.image) objs objs'
  crossed : objs' ≠ objs → CrossedByDead objs (z.keep * h.table.geometry.regionWords)
  image : objs' = objs ∧ h'.image = h.image
    ∨ ∃ o, objs' = o :: objs
      ∧ ObjectModel.fillDead h.image (h.table.covered.addr o.start) o.words = .ok h'.image
  spaces : ∃ starts, h'.spaces = h.spaces.set i { s with
        newTop := h.table.covered.addr (z.packed h.table.geometry.regionWords objs' z.top)
        densePrefix := h.table.covered.addr (z.keep * h.table.geometry.regionWords)
        starts }
      ∧ starts.covered = s.starts.covered
      ∧ ∀ must may : ℕ → Prop, s.starts.Between h.table.covered must may →
        (∀ o ∈ objs', o ∉ objs → may o.start) →
        starts.Between h.table.covered must may

variable [ObjectModel μ]

/-- A space that needs no filler is planned by a new table. -/
lemma PlannedAs.of_whole {t' : RegionTable} {spaces : List Space} {log : List LogRecord}
    (hc : h.Consistent objs) (hshape : h.table.SameShape t') (hblocks : t'.blocks = h.table.blocks)
    (hplanned : t'.Planned objs z)
    (hother : ∀ r, r < h.table.geometry.regionCount → ¬(z.first ≤ r ∧ r < z.last) →
      t'.regions.get r = h.table.regions.get r)
    (hwhole : z.first < z.keep → ¬CrossedByDead objs (z.keep * h.table.geometry.regionWords))
    (hspaces : spaces = h.spaces.set i { s with
      newTop := h.table.covered.addr (z.packed h.table.geometry.regionWords objs z.top)
      densePrefix := h.table.covered.addr (z.keep * h.table.geometry.regionWords) }) :
    h.PlannedAs { h with table := t', spaces, log } i s objs objs z where
  covered := rfl
  geometry := rfl
  updates := rfl
  consistent := hc.of_sameShape rfl rfl rfl hshape
  shape := hshape
  blocks := hblocks
  planned := hplanned
  other := hother
  filled := .whole hwhole
  crossed := fun hne => absurd rfl hne
  image := Or.inl ⟨rfl, rfl⟩
  spaces := ⟨s.starts, hspaces, rfl, fun _ _ hbetween _ => hbetween⟩

/-- A space whose objects are accounted is planned into itself. -/
theorem planFromBottom_runs (hc : h.Consistent objs) (hspace : h.spaces[i]? = some s)
    (hs : s.Over h.table.covered h.table.geometry.regionWords z)
    (hz : z.Ordered h.table.geometry.regionWords h.table.covered.words)
    (hbounds : z.Bounds h.table.geometry.regionWords objs) (hkeep : z.keep = z.first)
    (hacc : h.table.Accounted objs z.first z.last) :
    Runs (planFromBottom i) h fun _ h' => h.PlannedAs h' i s objs objs z := by
  have hlt := (List.getElem?_eq_some_iff.1 hspace).1
  have hbottom : s.bottom = h.table.covered.addr (z.keep * h.table.geometry.regionWords) := by
    rw [hs.bottom, hkeep]
  simp only [planFromBottom, runs_bind, runs_get, space_eq hspace, runs_check_ok, hbottom]
  have hpack := packSpace_runs hc hspace hs hz hbounds (fun r h1 h2 => by omega) (hkeep ▸ hacc)
  refine hpack.mono fun _ h' => ?_
  rintro ⟨t', log, rfl, hshape, hblocks, hplanned, hother⟩
  have hset := Space.Over.setDensePrefix_eq (s := { s with
    newTop := h.table.covered.addr (z.packed h.table.geometry.regionWords objs z.top) })
    ⟨hs.bottom, hs.limit, hs.top, hs.starts⟩ hz
  refine (runs_onSpace ?_ hset).2 ?_
  · exact List.getElem?_set_self hlt
  exact .of_whole hc hshape hblocks hplanned hother
    (fun hlt => absurd hkeep (ne_of_gt hlt)) (List.set_set ..)

omit [ObjectModel μ] in
/-- A dense prefix stays, and the rest of the space is packed behind it. -/
lemma packBehind_runs (hc : h.Consistent objs) (hspace : h.spaces[i]? = some s)
    (hs : s.Over h.table.covered h.table.geometry.regionWords z)
    (hz : z.Ordered h.table.geometry.regionWords h.table.covered.words)
    (hbounds : z.Bounds h.table.geometry.regionWords objs)
    (hacc : h.table.Accounted objs z.first z.last) :
    Runs (do
        onTable (·.keepInPlace s.bottom
          (h.table.covered.addr (z.keep * h.table.geometry.regionWords)))
        packSpace i (h.table.covered.addr (z.keep * h.table.geometry.regionWords))) h fun _ h' =>
      ∃ t' log, h' = { h with
          table := t'
          spaces := h.spaces.set i { s with
            newTop := h.table.covered.addr (z.packed h.table.geometry.regionWords objs z.top) }
          log }
        ∧ h.table.SameShape t' ∧ t'.blocks = h.table.blocks ∧ t'.Planned objs z
        ∧ ∀ r, r < h.table.geometry.regionCount → ¬(z.first ≤ r ∧ r < z.last) →
          t'.regions.get r = h.table.regions.get r := by
  have hW := h.table.geometry.regionWords_pos
  have hkeep : z.keep ≤ z.last :=
    Nat.le_of_mul_le_mul_right (le_trans hz.keep_le_top hz.top_le_last) hW
  have hlast : z.last ≤ h.table.geometry.regionCount := by
    have hwords := hz.last_le
    rw [hc.laid.covered_words] at hwords
    exact Nat.le_of_mul_le_mul_right hwords hW
  obtain ⟨t₁, heq, hkept⟩ :=
    RegionTable.keepInPlace_eq hc.laid hz.first_le_keep (le_trans hkeep hlast) fun r h1 h2 => by
    rw [(hacc.accounts r h1 (by omega)).partial_eq]
    exact partialOf_le ..
  have hcovered := hkept.shape.covered
  have hgeometry := hkept.shape.geometry
  have hstays := fun r h1 h2 => hkept.stays (r := r) hc.laid (hacc.sub (le_refl _) hkeep) h1 h2
  have hacc₁ := hkept.accounted (hacc.sub hz.first_le_keep (le_refl _))
  have hpack := packSpace_runs (h := { h with table := t₁ }) (s := s) (i := i) (z := z)
    (hc.of_sameShape rfl rfl rfl hkept.shape) hspace
    (by rw [hcovered, hgeometry]; exact hs) (by rw [hcovered, hgeometry]; exact hz)
      (by rw [hgeometry]; exact hbounds)
    hstays hacc₁
  simp only [hcovered, hgeometry] at hpack
  rw [← hs.bottom] at heq
  rw [runs_bind, runs_onTable heq]
  refine hpack.mono fun _ h' => ?_
  rintro ⟨t', log, rfl, hshape, hblocks, hplanned, hother⟩
  refine ⟨t', log, rfl, hkept.shape.trans hshape, hblocks.trans hkept.blocks, hplanned,
    fun r hr hout => ?_⟩
  rw [hother r hr hout, hkept.other r (by omega)]

/-- A dense prefix that ends with an object is kept, and the rest of the space is packed behind
it. -/
lemma packBehind_plans (hc : h.Consistent objs) (hspace : h.spaces[i]? = some s)
    (hs : s.Over h.table.covered h.table.geometry.regionWords z)
    (hz : z.Ordered h.table.geometry.regionWords h.table.covered.words)
    (hbounds : z.Bounds h.table.geometry.regionWords objs)
    (hacc : h.table.Accounted objs z.first z.last)
    (hwhole : z.first < z.keep → ¬CrossedByDead objs (z.keep * h.table.geometry.regionWords)) :
    Runs (do
        onTable (·.keepInPlace s.bottom
          (h.table.covered.addr (z.keep * h.table.geometry.regionWords)))
        packSpace i (h.table.covered.addr (z.keep * h.table.geometry.regionWords)))
      (h.setSpace i { s with
        densePrefix := h.table.covered.addr (z.keep * h.table.geometry.regionWords) })
      fun _ h' => h.PlannedAs h' i s objs objs z := by
  have hlt := (List.getElem?_eq_some_iff.1 hspace).1
  have hpack := packBehind_runs (h := h.setSpace i { s with
      densePrefix := h.table.covered.addr (z.keep * h.table.geometry.regionWords) }) (i := i)
    (hc.of_sameShape rfl rfl rfl (.refl _)) (List.getElem?_set_self hlt)
      ⟨hs.bottom, hs.limit, hs.top, hs.starts⟩ hz hbounds hacc
  refine hpack.mono fun _ h' => ?_
  rintro ⟨t', log, rfl, hshape, hblocks, hplanned, hother⟩
  exact .of_whole hc hshape hblocks hplanned hother hwhole (List.set_set ..)

/-- A dense prefix that ends with a filler is kept, and the rest of the space is packed behind
it. -/
lemma FillerAdded.packBehind_plans {h₁ : Heap μ} {o : Span} (hadded : (h.setSpace i { s with
      densePrefix := h.table.covered.addr (z.keep * h.table.geometry.regionWords) }).FillerAdded
        h₁ i { s with
      densePrefix := h.table.covered.addr (z.keep * h.table.geometry.regionWords) } objs o)
    (hc : h.Consistent objs)
    (hspace : h.spaces[i]? = some s) (hs : s.Over h.table.covered h.table.geometry.regionWords z)
    (hz : z.Ordered h.table.geometry.regionWords h.table.covered.words)
    (hbounds : z.Bounds h.table.geometry.regionWords objs)
    (hacc : h.table.Accounted objs z.first z.last)
    (hfirst : z.first < z.keep)
    (hcross : CrossedByDead objs (z.keep * h.table.geometry.regionWords))
    (hfiller : Filler objs (z.first * h.table.geometry.regionWords)
      (z.keep * h.table.geometry.regionWords) z.top
      (ObjectModel.minimumWords h.image) o) :
    Runs (do
        onTable (·.keepInPlace s.bottom
          (h.table.covered.addr (z.keep * h.table.geometry.regionWords)))
        packSpace i (h.table.covered.addr (z.keep * h.table.geometry.regionWords))) h₁
      fun _ h' => h.PlannedAs h' i s objs (o :: objs) z := by
  have hlt := (List.getElem?_eq_some_iff.1 hspace).1
  obtain ⟨starts, hspaces, hstarts, hbetween⟩ := hadded.spaces
  have hcovered : h₁.table.covered = h.table.covered := hadded.shape.covered
  have hgeometry : h₁.table.geometry = h.table.geometry := hadded.shape.geometry
  have hsep := hadded.consistent.marks.separate
  have hpack := packBehind_runs (h := h₁) (i := i) (z := z) (s := { s with
      densePrefix := h.table.covered.addr (z.keep * h.table.geometry.regionWords)
      starts }) hadded.consistent
    (by rw [hspaces]; exact List.getElem?_set_self (by simpa [setSpace] using hlt))
    (by
      rw [hcovered, hgeometry]; exact ⟨hs.bottom, hs.limit, hs.top, (hs.withStarts hstarts).starts⟩)
    (by rw [hcovered, hgeometry]; exact hz) (by rw [hgeometry]; exact hbounds.cons hfiller.holds)
    (hacc.addFiller hc.laid hadded.shape hsep hadded.regions)
  simp only [hcovered, hgeometry] at hpack
  refine hpack.mono fun _ h' => ?_
  rintro ⟨t', log, rfl, hshape, hblocks, hplanned, hother⟩
  constructor
  case covered => exact hadded.covered
  case geometry => exact hadded.geometry
  case updates => exact hadded.updates
  case consistent => exact hadded.consistent.of_sameShape rfl rfl rfl hshape
  case shape => exact hadded.shape.trans hshape
  case blocks => exact hblocks.trans hadded.blocks
  case planned => exact hplanned
  case other =>
    intro r hr hout
    rw [hother r hr hout, hadded.regions r]
    exact Region.account_of_apart (hsep.start_lt_past (List.mem_cons_self ..))
      (hfiller.holds.out hz hout)
  case filled => exact .filled o hfirst hfiller
  case crossed => exact fun _ => hcross
  case image => exact Or.inr ⟨o, rfl, hadded.image⟩
  case spaces =>
    refine ⟨starts, ?_, hstarts, fun must may hmust ho => ?_⟩
    · dsimp only
      rw [hspaces]
      simp only [setSpace, List.set_set]
    · exact (hbetween must may hmust (ho o (List.mem_cons_self ..) hsep.head_notMem)).mono
        (fun _ => Or.inl) fun _ => id

/-- A space that is planned into itself from its bottom is planned around any boundary, unless dead
space at the boundary has no room for a filler. -/
theorem planAround_leads (hc : h.Consistent objs) (hspace : h.spaces[i]? = some s)
    (hs : s.Over h.table.covered h.table.geometry.regionWords z)
    (hz : z.Ordered h.table.geometry.regionWords h.table.covered.words)
    (hbounds : z.Bounds h.table.geometry.regionWords objs)
    (hacc : h.table.Accounted objs z.first z.last)
    (hbottom : z.keep = z.first → h.table.Planned objs z
      ∧ s.newTop = h.table.covered.addr (z.packed h.table.geometry.regionWords objs z.top))
    (htop : z.first < z.keep → z.keep * h.table.geometry.regionWords < z.top)
    (hfill : ∀ addr words, ObjectModel.minimumWords h.image ≤ words → 0 < words →
      ∃ image, ObjectModel.fillDead h.image addr words = .ok image) :
    Leads (fun _ => z.first < z.keep ∧ ¬FillerFits objs (z.first * h.table.geometry.regionWords)
        (z.keep * h.table.geometry.regionWords) z.top (ObjectModel.minimumWords h.image))
      (planAround i (h.table.covered.addr (z.keep * h.table.geometry.regionWords))) h fun _ h' =>
      ∃ objs', h.PlannedAs h' i s objs objs' z := by
  have hW := h.table.geometry.regionWords_pos
  have hlt := (List.getElem?_eq_some_iff.1 hspace).1
  simp only [planAround, leads_bind, leads_get, space_eq hspace, leads_check_ok]
  refine (leads_onSpace hspace (hs.setDensePrefix_eq hz)).2 ?_
  by_cases hkeep : z.keep = z.first
  · -- There is no dense prefix.
    obtain ⟨hplanned, hnewTop⟩ := hbottom hkeep
    rw [if_neg (by rw [hs.bottom, hkeep]; simp), leads_pure]
    exact ⟨objs, .of_whole hc (.refl _) rfl hplanned (fun _ _ _ => rfl)
      (fun hlt => absurd hkeep (ne_of_gt hlt))
      (by rw [← hnewTop])⟩
  have hfirst : z.first < z.keep := lt_of_le_of_ne hz.first_le_keep (Ne.symm hkeep)
  have hbelow := Nat.mul_lt_mul_of_pos_right hfirst hW
  rw [if_pos (by rw [hs.bottom, Extent.addr_eq, Extent.addr_eq]; omega)]
  simp only [leads_bind]
  have hfilled := fillPrefixEnd_leads (h := h.setSpace i { s with
      densePrefix := h.table.covered.addr (z.keep * h.table.geometry.regionWords) }) (i := i)
    (hc.of_sameShape rfl rfl rfl (.refl _)) (List.getElem?_set_self hlt)
    ⟨hs.bottom, hs.limit, hs.top, hs.starts⟩ rfl hz hfirst (htop hfirst) hacc.accounts hfill
  refine (hfilled.widen fun _ hmisfit => ⟨hfirst, hmisfit⟩).mono fun _ h₁ => ?_
  rintro (⟨rfl, hcross⟩ | ⟨o, hcross, hfiller, hadded⟩)
  · have hpack := packBehind_plans hc hspace hs hz hbounds hacc fun _ => hcross
    rw [runs_bind] at hpack
    exact hpack.leads.mono fun _ _ hrun => hrun.leads.mono fun _ h' hplanned => ⟨objs, hplanned⟩
  · have hpack := hadded.packBehind_plans hc hspace hs hz hbounds hacc hfirst hcross hfiller
    rw [runs_bind] at hpack
    exact hpack.leads.mono fun _ _ hrun => hrun.leads.mono fun _ h' hplanned =>
      ⟨o :: objs, hplanned⟩

end Heap

end MarkCompact
