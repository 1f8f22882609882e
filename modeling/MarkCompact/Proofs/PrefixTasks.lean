import MarkCompact.Proofs.PartialEnds
import MarkCompact.Proofs.PrefixEnd
import MarkCompact.Proofs.Regions

/-!
# Updating part of a dense prefix

A task owns the objects and the holes that start in its regions.  It begins past the object, or the
hole, that reaches in from the left, goes through objects and holes in turn, and updates the object
that reaches out to the right as well.

Main statements: `ownStart_eq` (where a task begins) and `updatePrefix_leads` (a task takes one rest
to the next).
-/

namespace MarkCompact

variable {p : Plan} {done : ℕ → Prop} {objs : List Span} {o : Span} {z : Zone} {W a b c i n r x : ℕ}

/-! ## Past the object that reaches in -/

namespace Plan

variable {t : RegionTable}

/-- No object reaches out of a zone. -/
lemma Valid.boundary_last (hp : p.Valid) (hz : z ∈ p.zones) :
    Boundary p.objs (z.last * p.regionWords) := by
  intro o ho hcross
  obtain ⟨h1, h2⟩ := hcross
  have hz' := hp.ordered z hz
  have htop := hz'.top_le_last
  have hfirst := Nat.mul_lt_mul_of_pos_right hz'.first_lt_last p.regionWords_pos
  rcases hp.bounds hz o ho with hholds | hmiss | hmiss
  · have := hholds.2
    omega
  · omega
  · omega

lemma Valid.partialOf_last (hp : p.Valid) (hz : z ∈ p.zones) :
    partialOf p.objs p.regionWords z.last = 0 := by
  rw [partialOf, reach_eq_of_boundary (hp.boundary_last hz)]
  omega

/-- The recorded sizes are right up to the end of the zone. -/
lemma Loaded.partial_eq (h : p.Loaded t) (hp : p.Valid) (hz : z ∈ p.zones) (h1 : z.first ≤ r)
    (h2 : r ≤ z.last) :
    (t.regions.get r).partialWords = partialOf p.objs p.regionWords r := by
  rcases Nat.lt_or_eq_of_le h2 with hlt | rfl
  · rw [(h.ready z hz).partial_eq r h1 hlt, h.regionWords_eq]
  · by_cases hnext : ∃ z' ∈ p.zones, z'.first ≤ z.last ∧ z.last < z'.last
    · obtain ⟨z', hz', g1, g2⟩ := hnext
      rw [(h.ready z' hz').partial_eq _ g1 g2, h.regionWords_eq]
    · rw [h.outside _ fun z' hz' hin => hnext ⟨z', hz', hin⟩, hp.partialOf_last hz]

/-- The end of the object that reaches into a region. -/
theorem Loaded.partialEnd_eq (h : p.Loaded t) (hp : p.Valid) (hz : z ∈ p.zones) (h1 : z.first ≤ r)
    (h2 : r < z.last) :
    t.partialEnd r = .ok (p.covered.addr (reach p.objs (r * p.regionWords))) := by
  have hend := h.laid.partialEnd_eq (n := z.last) hp.separate (h.last_le hp hz)
    (by rw [h.regionWords_eq]; exact hp.boundary_last hz)
    (fun q hq1 hq2 _ => by rw [h.partial_eq hp hz (by omega) hq2, h.regionWords_eq]) h2.le
  rwa [h.covered, h.regionWords_eq] at hend

end Plan

/-! ## Claiming and completing the regions of a task -/

namespace RegionTable

variable {t t' t'' : RegionTable} {count k : ℕ}

/-- The tables differ in the counts of `count` regions from `r` on, which are `k` afterwards. -/
structure Counts (objs : List Span) (r count k : ℕ) (t t' : RegionTable) : Prop where
  recounted : Recounted objs t t'
  regions : ∀ x, t'.regions.get x = if r ≤ x ∧ x < r + count then (t.regions.get x).withCount k
    else t.regions.get x

lemma Counts.nil (objs : List Span) (r k : ℕ) (t : RegionTable) : Counts objs r 0 k t t :=
  ⟨.refl objs t, fun x => by rw [if_neg (by omega)]⟩

lemma Counts.cons (ht : t.Laid) (hr : r < t.geometry.regionCount)
    (hrest : Counts objs (r + 1) count k (t.setRegion r ((t.regions.get r).withCount k)) t') :
    Counts objs r (count + 1) k t t' := by
  refine ⟨(recounted_setRegion ht hr (Region.sameLoad_withCount _ _) rfl rfl).trans hrest.recounted,
    fun x => ?_⟩
  rw [hrest.regions]
  rcases Nat.lt_trichotomy x r with hlt | rfl | hlt
  · rw [if_neg (by omega), if_neg (by omega), Laid.get_setRegion_of_ne (by omega)]
  · rw [if_neg (by omega), if_pos (by omega), ht.get_setRegion_self hr]
  · rw [Laid.get_setRegion_of_ne (by omega)]
    by_cases hx : x < r + (count + 1)
    · rw [if_pos (by omega), if_pos (by omega)]
    · rw [if_neg (by omega), if_neg (by omega)]

end RegionTable

namespace Heap

variable {μ : Type} {h : Heap μ} {count : ℕ}

lemma claimPrefix_runs (objs : List Span) (ht : h.table.Laid)
    (hr : r + count ≤ h.table.geometry.regionCount)
    (hcount : ∀ x, r ≤ x → x < r + count → (h.table.regions.get x).count = 0) :
    Runs (claimPrefix count r) h fun _ h' => ∃ t, h' = { h with table := t }
      ∧ RegionTable.Counts objs r count claimedCount h.table t := by
  induction count generalizing r h with
  | zero => exact runs_pure.2 ⟨h.table, rfl, .nil objs r _ _⟩
  | succ count ih =>
    have hlt : r < h.table.geometry.regionCount := by omega
    rw [claimPrefix]
    simp only [runs_bind, runs_get]
    rw [RegionTable.Laid.region_eq hlt, runs_check_ok, Region.claim_eq (hcount r le_rfl (by omega))]
    dsimp only
    simp only [runs_bind, runs_modify]
    refine (ih (ht.setRegion r _)
      (by simpa using (by omega : r + 1 + count ≤ h.table.geometry.regionCount))
        fun x h1 h2 => ?_).mono ?_
    · show ((h.table.setRegion r _).regions.get x).count = 0
      rw [RegionTable.Laid.get_setRegion_of_ne (by omega)]
      exact hcount x (by omega) (by omega)
    · rintro _ h' ⟨t, rfl, hcounts⟩
      exact ⟨t, rfl, .cons ht hlt hcounts⟩

lemma completePrefix_runs (objs : List Span) (ht : h.table.Laid)
    (hr : r + count ≤ h.table.geometry.regionCount)
    (hcount : ∀ x, r ≤ x → x < r + count → (h.table.regions.get x).count = claimedCount) :
    Runs (completePrefix count r) h fun _ h' => ∃ t, h' = { h with table := t }
      ∧ RegionTable.Counts objs r count completedCount h.table t := by
  induction count generalizing r h with
  | zero => exact runs_pure.2 ⟨h.table, rfl, .nil objs r _ _⟩
  | succ count ih =>
    have hlt : r < h.table.geometry.regionCount := by omega
    rw [completePrefix, runs_bind,
      runs_onTable (RegionTable.Laid.update_eq hlt
        (Region.complete_eq (hcount r le_rfl (by omega))))]
    refine (ih (ht.setRegion r _)
      (by simpa using (by omega : r + 1 + count ≤ h.table.geometry.regionCount))
        fun x h1 h2 => ?_).mono ?_
    · show ((h.table.setRegion r _).regions.get x).count = claimedCount
      rw [RegionTable.Laid.get_setRegion_of_ne (by omega)]
      exact hcount x (by omega) (by omega)
    · rintro _ h' ⟨t, rfl, hcounts⟩
      exact ⟨t, rfl, .cons ht hlt hcounts⟩

end Heap

/-! ## Where a task begins -/

/-- The regions of the task belong to the dense prefix of zone number `i`, and none of them has been
completed. -/
structure Plan.Part (p : Plan) (done : ℕ → Prop) (i : ℕ) (z : Zone) (task : PrefixTask) : Prop where
  space : task.space = i
  zone : p.zones[i]? = some z
  first_le : z.first ≤ task.regionBeg
  lt : task.regionBeg < task.regionEnd
  le_keep : task.regionEnd ≤ z.keep
  fresh : ∀ r, task.regionBeg ≤ r → r < task.regionEnd → ¬done r

/-- What starts in the words from `a` on and before `b` starts from `c` on, and so does a walk over
objects and holes. -/
structure Zone.Own (z : Zone) (W : ℕ) (objs : List Span) (a b c : ℕ) : Prop where
  le : a ≤ c
  boundary : Boundary objs c
  objects : ∀ o ∈ objs, a ≤ o.start → o.start < b → c ≤ o.start
  holes : ∀ o, z.Hole W objs o → a ≤ o.start → o.start < b → c ≤ o.start
  opens : c < b → c = z.first * W ∨ Live objs (c - 1) ∨ Starts objs c

namespace Zone.Own

variable {W a b c : ℕ} {objs : List Span}

/-- Nothing reaches in from the left. -/
lemma start (hb : Boundary objs a) (hopens : a = z.first * W ∨ Live objs (a - 1) ∨ Starts objs a) :
    z.Own W objs a b a :=
  ⟨le_rfl, hb, fun _ _ h1 _ => h1, fun _ _ h1 _ => h1, fun _ => hopens⟩

/-- What is dead across the first word starts before it. -/
lemma behind_dead (hcross : CrossedByDead objs a) (hfirst : z.first * W < a)
    (found : IsFirst (Starts objs) a b c) :
    z.Own W objs a b c where
  le := found.start_le
  boundary := hcross.boundary.of_not_live found.start_le fun j h1 h2 =>
    dead_start hcross.boundary found j h1 h2
  objects o ho h1 h2 := by
    by_contra hlt
    exact found.before o.start h1 (not_le.1 hlt) ⟨o, ho, rfl⟩
  holes o hole h1 h2 := by
    by_contra hlt
    rcases hole.left with heq | hlive
    · omega
    · rcases Nat.eq_or_lt_of_le h1 with heq | hgt
      · exact hcross.1 (heq ▸ hlive)
      · exact dead_start hcross.boundary found (o.start - 1) (by omega) (by omega) hlive
  opens hlt := Or.inr (Or.inr (found.holds hlt))

/-- So does the object that has the first word. -/
lemma behind_object (hsep : Separate objs) (hreach : a < reach objs a) :
    z.Own W objs a b (reach objs a) where
  le := hreach.le
  boundary := boundary_reach hsep a
  objects o ho h1 _ := by
    by_contra hlt
    exact not_starts_of_lt_reach hsep h1 (not_le.1 hlt) ⟨o, ho, rfl⟩
  holes o hole h1 _ := by
    by_contra hlt
    exact hole.dead o.start le_rfl (by have := hole.pos; rw [Span.past]; omega)
      (live_of_lt_reach hsep h1 (not_le.1 hlt))
  opens _ := Or.inr (Or.inl (live_of_lt_reach (a := a) hsep (by omega) (by omega)))

end Zone.Own

namespace Heap

variable {μ : Type} {h : Heap μ} {s : Space} {task : PrefixTask}

/-- A task begins past what reaches in from the left. -/
theorem ownStart_eq (hp : p.Valid) (hserves : p.Serves h) (hpart : p.Part done i z task)
    (hs : s.Matches p.covered p.regionWords p.objs z) :
    ∃ c, h.ownStart s task = .ok (p.covered.addr c)
      ∧ z.Own p.regionWords p.objs (task.regionBeg * p.regionWords)
        (task.regionEnd * p.regionWords) c := by
  have hW := p.regionWords_pos
  have hz := List.mem_of_getElem? hpart.zone
  have hzone := hp.ordered z hz
  have hloaded := hserves.loaded
  have hkeep := hzone.keep_le_last hW
  have hlt := hpart.lt
  have hle := hpart.le_keep
  have hfirst := hpart.first_le
  have hwords := hzone.last_le
  have hbeg := Nat.mul_lt_mul_of_pos_right hlt hW
  have hend := Nat.mul_le_mul_right p.regionWords (le_trans hle hkeep)
  have hsep := hp.separate
  have hmarks := hserves.consistent.marks
  have hpartial := hloaded.partial_eq hp hz hfirst (show task.regionBeg ≤ z.last by omega)
  rw [ownStart, hloaded.regionStart_eq, hloaded.regionStart_eq]
  by_cases hbottom : task.regionBeg = z.first
  · rw [if_pos (by rw [hs.bottom, hbottom])]
    exact ⟨_, rfl, .start (hbottom ▸ (hp.bounds hz).boundary_first hzone)
      (Or.inl (by rw [hbottom]))⟩
  have hfirst' := Nat.mul_lt_mul_of_pos_right (show z.first < task.regionBeg by omega) hW
  rw [if_neg (by rw [hs.bottom, Extent.addr_inj]; omega),
    RegionTable.Laid.region_eq (hloaded.region_lt hp hz (show task.regionBeg < z.last by omega)),
    ok_bind, hpartial]
  by_cases hzero : partialOf p.objs p.regionWords task.regionBeg = 0
  · obtain ⟨crosses, heq, hcrosses⟩ :=
      hmarks.deadSpaceCrosses_eq (k := task.regionBeg) hW (by omega)
      (by rw [hserves.bitmap_covered]; omega) hpartial
    have hbit :=
      hmarks.bitOf_addr (a := task.regionBeg * p.regionWords)
        (by rw [hserves.bitmap_covered]; omega)
    rw [hserves.bitmap_covered] at hbit
    rw [if_neg (not_not.2 hzero), hbit, ok_bind, heq, ok_bind]
    by_cases hdead : CrossedByDead p.objs (task.regionBeg * p.regionWords)
    · have hbegin := hmarks.firstBegin_eq hbeg.le (by rw [hserves.bitmap_covered]; omega)
      rw [hserves.bitmap_covered] at hbegin
      rw [if_pos (hcrosses.2 hdead), hbegin]
      exact ⟨_, rfl, .behind_dead hdead hfirst' (hmarks.firstIn_begins hbeg.le)⟩
    · have hboundary :=
        boundary_partialOf hsep (W := p.regionWords) (r := task.regionBeg) (by omega)
      rw [hzero, Nat.add_zero] at hboundary
      rw [CrossedByDead, not_and_or, not_not, not_not] at hdead
      rw [if_neg fun h => not_and_or.2 (hdead.imp not_not.2 not_not.2) (hcrosses.1 h)]
      exact ⟨_, rfl, .start hboundary (Or.inr (hdead.imp_right hboundary.starts_of_live))⟩
  · rw [if_pos hzero, hloaded.partialEnd_eq hp hz hfirst (by omega)]
    exact ⟨_, rfl, .behind_object hsep (lt_reach_of_lt_partialOf (by omega) le_rfl)⟩

end Heap

/-! ## Objects and holes in turn -/

/-- A gap that a walk through the dense prefix meets is a hole, unless it begins behind other dead
space. -/
lemma Gap.hole (hgap : Gap objs (z.keep * W) a b) (hsep : Separate objs) (hfirst : z.first * W ≤ a)
    (hopen : a = z.first * W ∨ Live objs (a - 1)) : z.Hole W objs ⟨a, b - a⟩ := by
  have hlt := hgap.lt
  have hpast : Span.past ⟨a, b - a⟩ = b := by rw [Span.past]; dsimp only; omega
  refine ⟨hfirst, by rw [hpast]; exact hgap.le_limit, Nat.sub_pos_of_lt hlt,
    by rw [hpast]; exact hgap.dead, hopen, ?_⟩
  rw [hpast]
  rcases Nat.lt_or_eq_of_le hgap.le_limit with hbelow | hend
  · obtain ⟨o, ho, hstart⟩ := hgap.starts hbelow
    exact Or.inr (live_of_mem ho (hstart ▸ Span.covers_start (hsep.words_pos o ho)))
  · exact Or.inl hend

namespace Plan.Valid

variable {w : ℕ} (hp : p.Valid) (hz : z ∈ p.zones)
include hp hz

lemma has_of_lt_keep (h1 : z.first * p.regionWords ≤ w) (h2 : w < z.keep * p.regionWords) :
    z.Has p.regionWords w :=
  (hp.ordered z hz).has_of_le h1 (lt_of_lt_of_le h2 (hp.ordered z hz).keep_le_top)

/-- Words of the dense prefix stay. -/
lemma forward_of_lt_keep (h1 : z.first * p.regionWords ≤ w) (h2 : w < z.keep * p.regionWords) :
    p.forward w = w := by
  rw [hp.forward_eq hz (hp.has_of_lt_keep hz h1 h2), Zone.forward, if_pos h2]

/-- Only words that stay go to the dense prefix. -/
lemma eq_of_forward_lt_keep (hw : Live p.objs w) (h1 : z.first * p.regionWords ≤ p.forward w)
    (h2 : p.forward w < z.keep * p.regionWords) : p.forward w = w := by
  obtain ⟨z', hz', hhas, _⟩ := hp.exists_zone hw
  obtain rfl := hp.eq_of_has hz hz' (hp.has_of_lt_keep hz h1 h2) (hp.has_forward hz' hhas)
  rw [hp.forward_eq hz hhas, Zone.forward] at h2 ⊢
  split
  · rfl
  · rename_i hge
    rw [if_neg hge] at h2
    exact absurd h2 (not_lt.2 (z.le_packed _ _ w))

/-- The words of an object that starts in the dense prefix stay, also those behind its end. -/
lemma forward_add_of_lt_keep (ho : o ∈ p.objs) (h1 : z.first * p.regionWords ≤ o.start)
    (h2 : o.start < z.keep * p.regionWords) {k : ℕ} (hk : k < o.words) :
    p.forward (o.start + k) = o.start + k := by
  rw [hp.forward_add ho hk, hp.forward_of_lt_keep hz h1 h2]

/-- A hole that starts in a dense prefix lies in it. -/
lemma hole_of_lt_keep (hole : p.Hole o) (h1 : z.first * p.regionWords ≤ o.start)
    (h2 : o.start < z.keep * p.regionWords) :
    z.Hole p.regionWords p.objs o := by
  obtain ⟨z', hz', hole'⟩ := hole
  have hpos := hole'.pos
  have hpast := hole'.past_le
  rw [Span.past] at hpast
  obtain rfl := hp.eq_of_has hz hz' (hp.has_of_lt_keep hz h1 h2)
    (hp.has_of_lt_keep hz' hole'.first_le (by omega))
  exact hole'

end Plan.Valid

namespace Heap

open Plan

variable {μ : Type} [ObjectModel μ] {K : Upkeep μ p} {h : Heap μ} {g : Progress} {task : PrefixTask}

/-- An object all of whose words have arrived is updated. -/
lemma updateInPlace_leads {filled swept : ℕ → Prop} {updated : Span → Prop}
    (hg : K.Reaches filled updated swept g h) (hz : p.zones[i]? = some z)
    (hhas : z.Has p.regionWords (p.forward o.start)) (ho : o ∈ p.objs) (hnot : ¬updated o)
    (harrived : ∀ k, k < o.words → p.location filled (o.start + k) = p.forward o.start + k) :
    Leads K.may (updateInPlace i (p.covered.addr (p.forward o.start))) h fun _ h' =>
      (∃ g', K.Reaches filled (fun o' => updated o' ∨ o' = o) swept g' h')
        ∧ RegionTable.Refilled p.objs h.table h'.table := by
  have hfilled : g.filled = filled := funext fun x => propext (hg.filled_iff x)
  rw [updateInPlace, leads_bind]
  refine (K.recordStart hg.holds hz hhas (Or.inl ⟨o, ho, rfl⟩)).mono fun _ h₁ => ?_
  rintro ⟨hholds₁, htable₁⟩
  refine (K.updateObject hholds₁ ho ((hg.updated_iff o).not.2 hnot)
    (by rw [hfilled]; exact harrived)).mono fun _ h₂ => ?_
  rintro ⟨hholds₂, hrefilled⟩
  rw [htable₁] at hrefilled
  refine ⟨⟨_, ⟨hholds₂, hg.filled_iff, fun o' => ?_, ?_, fun y hy => Or.inl (hg.noted_closed y hy),
    hg.closed, hg.holes⟩⟩, hrefilled⟩
  · show o' ∈ o :: g.updated ↔ _
    rw [List.mem_cons, hg.updated_iff, or_comm]
  · exact List.forall_mem_cons.2 ⟨Or.inr rfl, fun o' ho' => Or.inl (hg.noted o' ho')⟩

omit [ObjectModel μ] in
/-- Visiting pieces one after the other, each of which takes what holds at its start to what holds
at its end. -/
lemma visitRuns_leads {may : Fault → Prop} {P : ℕ → Heap μ → Prop}
    {visit : Piece → HeapAction μ WalkStatus} {outcome : WalkOutcome} {limit first : ℕ}
    {pieces : List Piece} (hpieces : Pieces p.objs p.covered limit a pieces c)
    (hlive : ∀ o ∈ p.objs, a ≤ o.start → o.past ≤ c → ∀ h, P o.start h →
      Leads may (visit (.live (o.run p.covered))) h fun status h' =>
        status = .incomplete ∧ P o.past h')
    (hdead : ∀ x y, a ≤ x → y ≤ c → Gap p.objs limit x y → x = first ∨ Live p.objs (x - 1) →
      ∀ h, P x h →
      Leads may (visit (.dead (Span.run ⟨x, y - x⟩ p.covered))) h fun status h' =>
        status = .incomplete ∧ P y h')
    (hp : p.Valid) (hopen : a < limit → a = first ∨ Live p.objs (a - 1) ∨ Starts p.objs a)
    (hstart : P a h) :
    Leads may (visitRuns visit outcome pieces) h fun out h' => out = outcome ∧ P c h' := by
  induction hpieces generalizing h with
  | nil a => exact leads_pure.2 ⟨rfl, hstart⟩
  | @live c o rest mem next ih =>
    have hle := next.le hp.separate
    have hpos := hp.separate.start_lt_past mem
    rw [visitRuns, leads_bind]
    refine (hlive o mem le_rfl hle h hstart).mono fun status h₁ => ?_
    rintro ⟨rfl, hP⟩
    refine ih (fun o' ho' h1 => hlive o' ho' (by omega)) (fun x y h1 => hdead x y (by omega))
      (fun _ => Or.inr (Or.inl ?_)) hP
    exact live_of_mem mem ⟨by omega, by omega⟩
  | @dead a b c rest gap next ih =>
    have hle := next.le hp.separate
    have hlt := gap.lt
    have hlimit := gap.le_limit
    rw [visitRuns, leads_bind]
    have hopen' : a = first ∨ Live p.objs (a - 1) := by
      rcases hopen (by omega) with heq | hlive | ⟨o, ho, hstart⟩
      · exact Or.inl heq
      · exact Or.inr hlive
      · exact absurd (live_of_mem ho (hstart ▸ Span.covers_start (hp.separate.words_pos o ho)))
          (gap.dead a le_rfl hlt)
    refine (hdead a b le_rfl hle gap hopen' h hstart).mono fun status h₁ => ?_
    rintro ⟨rfl, hP⟩
    exact ih (fun o' ho' h1 => hlive o' ho' (by omega)) (fun x y h1 => hdead x y (by omega))
      (fun hlt => Or.inr (Or.inr (gap.starts hlt))) hP

end Heap

/-- The objects and the holes that start from word `b` on and before word `a` have been seen to. -/
def Upkeep.Swept {μ : Type} [ObjectModel μ] (K : Upkeep μ p) (done : ℕ → Prop) (b a : ℕ)
    (h : Heap μ) : Prop :=
  ∃ g, K.Reaches (p.Settled done)
    (fun o => o ∈ p.objs ∧ (done (p.forward o.start / p.regionWords) ∧ ¬p.Split o ∨ b ≤ o.start
      ∧ o.start < a))
    (fun y => done (y / p.regionWords) ∨ (b ≤ y ∧ y < a)) g h

lemma Upkeep.Swept.serves {μ : Type} [ObjectModel μ] {K : Upkeep μ p} {h : Heap μ}
    (hswept : K.Swept done b a h) : p.Serves h := by
  obtain ⟨g, hg⟩ := hswept
  exact K.serves hg.holds

lemma Upkeep.Swept.withTable {μ : Type} [ObjectModel μ] {K : Upkeep μ p} {h : Heap μ}
    (hswept : K.Swept done b a h) {t : RegionTable} (hserves : p.Serves { h with table := t }) :
    K.Swept done b a { h with table := t } := by
  obtain ⟨g, hg⟩ := hswept
  exact ⟨g, { hg with holds := K.withTable hg.holds hserves }⟩

/-- What has been seen to depends on the objects and holes only. -/
lemma Upkeep.Swept.mono {μ : Type} [ObjectModel μ] {K : Upkeep μ p} {h : Heap μ}
    (hswept : K.Swept done b a h)
    (hobjects : ∀ o ∈ p.objs, b ≤ o.start → (o.start < a ↔ o.start < c))
    (hholes : ∀ o, p.Hole o → b ≤ o.start → o.start < c → o.start < a) : K.Swept done b c h := by
  obtain ⟨g, hg⟩ := hswept
  refine ⟨g, { hg with
    updated_iff := fun o => (hg.updated_iff o).trans ?_
    closed := fun o ho hin => hg.closed o ho ?_ }⟩
  · exact and_congr_right fun ho => or_congr_right (and_congr_right fun hb => hobjects o ho hb)
  · exact hin.imp_right fun hin => ⟨hin.1, hholes o ho hin.1 hin.2⟩

namespace Heap

open Plan

variable {μ : Type} [ObjectModel μ] {K : Upkeep μ p} {h : Heap μ} {task : PrefixTask}

/-- An object of the task is updated. -/
lemma sweepObject_leads (hp : p.Valid) (hpart : p.Part done i z task) (ho : o ∈ p.objs)
    (h1 : task.regionBeg * p.regionWords ≤ o.start) (h2 : o.start < task.regionEnd * p.regionWords)
    (hswept : K.Swept done (task.regionBeg * p.regionWords) o.start h) :
    Leads K.may (updateInPlace task.space (p.covered.addr o.start)) h fun _ h' =>
      K.Swept done (task.regionBeg * p.regionWords) o.past h'
        ∧ RegionTable.Refilled p.objs h.table h'.table := by
  have hz := List.mem_of_getElem? hpart.zone
  have hfirst := Nat.mul_le_mul_right p.regionWords hpart.first_le
  have hkeep := Nat.mul_le_mul_right p.regionWords hpart.le_keep
  have hstays := hp.forward_of_lt_keep hz (w := o.start) (by omega) (by omega)
  have hpos := hp.separate.start_lt_past ho
  obtain ⟨g, hg⟩ := hswept
  have hnot : ¬(o ∈ p.objs ∧ (done (p.forward o.start / p.regionWords) ∧ ¬p.Split o
      ∨ task.regionBeg * p.regionWords ≤ o.start ∧ o.start < o.start)) := by
    rintro ⟨_, ⟨hdone, _⟩ | hlt⟩
    · rw [hstays] at hdone
      exact hpart.fresh _ ((Nat.le_div_iff_mul_le p.regionWords_pos).2 h1)
        (div_lt_of_lt_mul h2) hdone
    · exact lt_irrefl _ hlt.2
  have harrived : ∀ k, k < o.words →
      p.location (p.Settled done) (o.start + k) = p.forward o.start + k := by
    intro k hk
    have hword := hp.forward_add_of_lt_keep hz ho (by omega) (by omega) hk
    rw [location, hword, hstays, ite_self]
  have hupdate :=
    updateInPlace_leads hg hpart.zone
      (by rw [hstays]; exact hp.has_of_lt_keep hz (by omega) (by omega)) ho hnot harrived
  rw [hstays] at hupdate
  rw [hpart.space]
  refine hupdate.mono fun _ h' => ?_
  rintro ⟨⟨g', hg'⟩, hrefilled⟩
  refine ⟨⟨g', { hg' with
    updated_iff := fun o' => (hg'.updated_iff o').trans ?_
    closed := fun o' ho' hin => hg'.closed o' ho' ?_ }⟩, hrefilled⟩
  · constructor
    · rintro (⟨ho', hdone | hlt⟩ | rfl)
      · exact ⟨ho', Or.inl hdone⟩
      · exact ⟨ho', Or.inr ⟨hlt.1, by omega⟩⟩
      · exact ⟨ho, Or.inr ⟨h1, hpos⟩⟩
    · rintro ⟨ho', hdone | hlt⟩
      · exact Or.inl ⟨ho', Or.inl hdone⟩
      · by_cases hbefore : o'.start < o.start
        · exact Or.inl ⟨ho', Or.inr ⟨hlt.1, hbefore⟩⟩
        · -- Only the object itself starts in its words.
          exact Or.inr (hp.separate.eq_of_covers ho' ho
            (Span.covers_start (hp.separate.words_pos o' ho')) ⟨not_lt.1 hbefore, hlt.2⟩)
  · refine hin.imp_right fun hin => ⟨hin.1, ?_⟩
    obtain ⟨z', _, hole⟩ := ho'
    by_contra hle
    exact hole.dead o'.start le_rfl (by have := hole.pos; rw [Span.past]; omega)
      (live_of_mem ho ⟨not_lt.1 hle, hin.2⟩)

/-- A hole of the dense prefix is filled. -/
lemma sweepHole_leads (hK : K.ClosesHoles) (hp : p.Valid) (hpart : p.Part done i z task)
    (hole : z.Hole p.regionWords p.objs o)
    (hswept : K.Swept done (task.regionBeg * p.regionWords) o.start h) :
    Leads K.may (fillGap task.space (o.run p.covered)) h fun _ h' =>
      K.Swept done (task.regionBeg * p.regionWords) o.past h' ∧ h'.table = h.table := by
  have hz := List.mem_of_getElem? hpart.zone
  have hpos := hole.pos
  obtain ⟨g, hg⟩ := hswept
  rw [hpart.space]
  refine (hK.closeHole hg.holds hpart.zone hole).mono fun _ h' => ?_
  rintro ⟨hholds, htable⟩
  refine ⟨⟨_, ⟨hholds, hg.filled_iff, fun o' => (hg.updated_iff o').trans ?_,
    fun o' ho' => Or.inl (hg.noted o' ho'), ?_, ?_, ?_⟩⟩, htable⟩
  · refine and_congr_right fun ho' =>
      or_congr_right (and_congr_right fun _ => ⟨fun hlt => by rw [Span.past]; omega, fun hlt => ?_⟩)
    by_contra hle
    exact hole.dead o'.start (not_lt.1 hle) hlt
      (live_of_mem ho' (Span.covers_start (hp.separate.words_pos o' ho')))
  · exact fun y hy => hy.imp_left (hg.noted_closed y)
  · intro o' ho' hin
    by_cases hlt : o'.start < o.start
    · exact Or.inl (hg.closed o' ho' (hin.imp_right fun hin => ⟨hin.1, hlt⟩))
    · rcases hin with hdone | hin
      · exact Or.inl (hg.closed o' ho' (Or.inl hdone))
      · have hpos' : 0 < o'.words := by
          obtain ⟨_, _, hole'⟩ := ho'
          exact hole'.pos
        exact Or.inr (congrArg Span.start (ho'.eq_of_covers
          ⟨z, hz, hole⟩ hp (Span.covers_start hpos') ⟨not_lt.1 hlt, hin.2⟩))
  · rintro y (hy | rfl)
    · exact hg.holes y hy
    · exact ⟨o, ⟨z, hz, hole⟩, rfl⟩

/-- Between two borders the objects and holes of a task are seen to, those that reach out of it
included. -/
lemma sweepBetween_leads (hK : K.ClosesHoles) (hp : p.Valid) (hpart : p.Part done i z task)
    (hown : z.Own p.regionWords p.objs (task.regionBeg * p.regionWords)
      (task.regionEnd * p.regionWords) c)
    (hc : c < task.regionEnd * p.regionWords)
    (hswept : K.Swept done (task.regionBeg * p.regionWords) c h) :
    ∃ walk, h.bitmap.iterateWithDead (fun o => do
          updateInPlace task.space o.start
          pure .incomplete) (fillGap task.space) (p.covered.addr c)
            (p.covered.addr (task.regionEnd * p.regionWords))
        (p.covered.addr (z.keep * p.regionWords)) = .ok walk
      ∧ Leads K.may walk h fun outcome h₁ => Leads K.may (match outcome.status, outcome.source with
          | .incomplete, some straddler => updateInPlace task.space straddler
          | _, _ => pure ()) h₁ fun _ h' =>
        K.Swept done (task.regionBeg * p.regionWords) (task.regionEnd * p.regionWords) h'
          ∧ RegionTable.Refilled p.objs h.table h'.table := by
  have hz := List.mem_of_getElem? hpart.zone
  have hkeep := Nat.mul_le_mul_right p.regionWords hpart.le_keep
  have hbeg := hown.le
  have hfirst := Nat.mul_le_mul_right p.regionWords hpart.first_le
  have hserves := hswept.serves
  have hcovered := hserves.bitmap_covered
  have hwords := (hp.ordered z hz).last_le
  have hlast :=
    Nat.mul_le_mul_right p.regionWords ((hp.ordered z hz).keep_le_last p.regionWords_pos)
  obtain ⟨pieces, d, straddler, heq, hpieces, hd⟩ :=
    hserves.consistent.marks.piecesIn_eq hown.boundary hc hkeep
    (by rw [hcovered]; omega)
  rw [hcovered] at heq hpieces hd
  rw [MarkBitmap.iterateWithDead, heq, ok_bind]
  refine ⟨_, rfl, ?_⟩
  have hcd := hpieces.le hp.separate
  have hstarts : ∀ o ∈ p.objs, o.past ≤ d → o.start < task.regionEnd * p.regionWords := by
    intro o ho hpast
    have hpos := hp.separate.start_lt_past ho
    rcases hd with ⟨_, _, _, hdead, _⟩ | ⟨_, _, _, _, hlt, _⟩
    · by_contra hge
      exact hdead o.start (not_lt.1 hge) (by omega) (live_of_mem ho ⟨le_rfl, hpos⟩)
    · omega
  refine (visitRuns_leads (P := fun x h' => K.Swept done (task.regionBeg * p.regionWords) x h'
    ∧ RegionTable.Refilled p.objs h.table h'.table) hpieces ?_ ?_ hp
      (fun _ => hown.opens hc) ⟨hswept, .refl _ _⟩).mono
    fun outcome h₁ => ?_
  · rintro o ho h1 h2 h₁ ⟨hswept₁, hrefilled₁⟩
    dsimp only
    rw [leads_bind]
    refine (sweepObject_leads hp hpart ho (by omega) (hstarts o ho h2) hswept₁).mono fun _ h₂ => ?_
    rintro ⟨hswept₂, hrefilled₂⟩
    exact ⟨rfl, hswept₂, hrefilled₁.trans hrefilled₂⟩
  · rintro x y h1 _ hgap hopen h₁ ⟨hswept₁, hrefilled₁⟩
    have hlt := hgap.lt
    have hpast : Span.past ⟨x, y - x⟩ = y := by rw [Span.past]; dsimp only; omega
    have hole := hgap.hole hp.separate (le_trans hfirst (le_trans hbeg h1)) hopen
    dsimp only
    rw [leads_bind]
    refine (sweepHole_leads hK hp hpart hole hswept₁).mono fun _ h₂ => ?_
    rintro ⟨hswept₂, htable₂⟩
    rw [hpast] at hswept₂
    exact ⟨rfl, hswept₂, htable₂ ▸ hrefilled₁⟩
  · rintro ⟨rfl, hswept₁, hrefilled₁⟩
    rcases hd with ⟨rfl, h1, _, hdead, _⟩ | ⟨o, ho, rfl, rfl, h1, h2⟩
    · refine leads_pure.2 ⟨hswept₁.mono (fun o' ho' _ => ⟨fun hlt => ?_, fun hlt => by omega⟩)
        (fun o' _ _ hlt => by omega), hrefilled₁⟩
      by_contra hge
      exact hdead o'.start (not_lt.1 hge) hlt
        (live_of_mem ho' (Span.covers_start (hp.separate.words_pos o' ho')))
    · refine (sweepObject_leads hp hpart ho (by omega) h1 hswept₁).mono fun _ h₂ => ?_
      rintro ⟨hswept₂, hrefilled₂⟩
      refine ⟨hswept₂.mono (fun o' ho' _ => ⟨fun hlt => ?_, fun hlt => by omega⟩)
        (fun o' _ _ hlt => by omega), hrefilled₁.trans hrefilled₂⟩
      by_contra hge
      have hsame :=
        hp.separate.eq_of_covers ho' ho (Span.covers_start (hp.separate.words_pos o' ho'))
          ⟨by omega, hlt⟩
      rw [hsame] at hge
      omega

end Heap

/-! ## The next rest -/

namespace Upkeep

variable {μ : Type} [ObjectModel μ] {K : Upkeep μ p} {h h' : Heap μ} {task : PrefixTask}

/-- Before a task begins, none of its objects and holes has been seen to. -/
lemma Rests.swept (hrests : K.Rests done h) (hobjects : ∀ o ∈ p.objs, b ≤ o.start → c ≤ o.start)
    (hholes : ∀ o, p.Hole o → b ≤ o.start → c ≤ o.start) : K.Swept done b c h := by
  obtain ⟨g, hg⟩ := hrests.reached
  refine ⟨g, { hg with
    updated_iff := fun o => (hg.updated_iff o).trans ?_
    closed := fun o ho hin => hg.closed o ho ?_ }⟩
  · refine and_congr_right fun ho => (or_iff_left fun hin => ?_).symm
    exact absurd (hobjects o ho hin.1) (not_le.2 hin.2)
  · exact hin.resolve_right fun hin => absurd (hholes o ho hin.1) (not_le.2 hin.2)

end Upkeep

namespace Plan.Part

variable {task : PrefixTask} (hpart : p.Part done i z task) (hp : p.Valid)
include hpart

lemma mem : z ∈ p.zones :=
  List.mem_of_getElem? hpart.zone

/-- The words of the task stay. -/
lemma settled_iff (x : ℕ) :
    p.Settled (fun r => done r ∨ (task.regionBeg ≤ r ∧ r < task.regionEnd)) x
      ↔ p.Settled done x := by
  refine ⟨fun hx => ?_, fun hx => hx.imp_right Or.inl⟩
  rcases hx with hkept | hdone | ⟨h1, h2⟩
  · exact Or.inl hkept
  · exact Or.inr hdone
  · have hfirst := Nat.mul_le_mul_right p.regionWords hpart.first_le
    have hkeep := Nat.mul_le_mul_right p.regionWords hpart.le_keep
    have hlow := (Nat.le_div_iff_mul_le p.regionWords_pos).1 h1
    have hhigh := (Nat.div_lt_iff_lt_mul p.regionWords_pos).1 h2
    exact Or.inl ⟨z, hpart.mem, by omega, by omega⟩

include hp

/-- The regions of the task are no destinations. -/
lemma not_mem_of_keep_le {z' : Zone} (hz' : z' ∈ p.zones) (h1 : z'.keep ≤ r) (h2 : r < z'.last) :
    ¬(task.regionBeg ≤ r ∧ r < task.regionEnd) := by
  rintro ⟨h3, h4⟩
  have hkeep := (hp.ordered z hpart.mem).keep_le_last p.regionWords_pos
  have hfirst := (hp.ordered z' hz').first_le_keep
  have hle := hpart.le_keep
  have hge := hpart.first_le
  obtain rfl := hp.eq_of_region hpart.mem hz' (by omega) (by omega) (le_trans hfirst h1) h2
  omega

/-- The objects that start in the regions of the task are those that go there, and none of them
moves. -/
lemma region_iff (ho : o ∈ p.objs) :
    task.regionBeg * p.regionWords ≤ o.start ∧ o.start < task.regionEnd * p.regionWords
    ↔ (task.regionBeg ≤ p.forward o.start / p.regionWords
      ∧ p.forward o.start / p.regionWords < task.regionEnd) ∧ ¬p.Split o := by
  have hfirst := Nat.mul_le_mul_right p.regionWords hpart.first_le
  have hkeep := Nat.mul_le_mul_right p.regionWords hpart.le_keep
  have hcov := Span.covers_start (hp.separate.words_pos o ho)
  rw [Nat.le_div_iff_mul_le p.regionWords_pos, Nat.div_lt_iff_lt_mul p.regionWords_pos]
  constructor
  · rintro ⟨h1, h2⟩
    have hstays :=
      hp.forward_of_lt_keep hpart.mem (show z.first * p.regionWords ≤ o.start by omega) (by omega)
    rw [hstays]
    refine ⟨⟨h1, h2⟩, ?_⟩
    rintro ⟨⟨z', hz', hholds, hge⟩, _⟩
    have hhas :=
      hp.has_of_lt_keep hpart.mem (show z.first * p.regionWords ≤ o.start by omega) (by omega)
    obtain rfl := hp.eq_of_has hpart.mem hz' hhas (hholds.has (hp.ordered z' hz') hcov)
    omega
  · rintro ⟨⟨h1, h2⟩, _⟩
    have hstays := hp.eq_of_forward_lt_keep hpart.mem (live_of_mem ho hcov) (by omega) (by omega)
    exact ⟨hstays ▸ h1, hstays ▸ h2⟩

/-- The counts once the regions of the task are completed. -/
lemma counted {t t' : RegionTable} (hcounted : p.Counted t done fun q _ => done q)
    (hcount : ∀ x, (t'.regions.get x).count
      = if task.regionBeg ≤ x ∧ x < task.regionEnd then completedCount else (t.regions.get x).count)
    (hpushed : ∀ x, (t'.regions.get x).pushed = (t.regions.get x).pushed) :
    p.Counted t' (fun r => done r ∨ (task.regionBeg ≤ r ∧ r < task.regionEnd))
      fun q _ => done q ∨ (task.regionBeg ≤ q ∧ q < task.regionEnd) := by
  have hdone : ∀ z' ∈ p.zones, ∀ r, z'.keep ≤ r → r < z'.last →
      (done r ↔ done r ∨ (task.regionBeg ≤ r ∧ r < task.regionEnd)) := fun z' hz' r h1 h2 =>
    (or_iff_left (hpart.not_mem_of_keep_le hp hz' h1 h2)).symm
  have hfeeds : ∀ z' ∈ p.zones, ∀ r, r < z'.last → ∀ q, q < r → z'.Feeds p.regionWords p.objs r q →
      (done q ↔ done q ∨ (task.regionBeg ≤ q ∧ q < task.regionEnd)) :=
        fun z' hz' r h2 q hq hfeeds =>
    hdone z' hz' q hfeeds.keep_le (lt_trans hq h2)
  refine ⟨fun z' hz' r h1 h2 => ?_, fun z' hz' r h1 h2 => ?_, fun z' hz' r h1 h2 => ?_⟩
  · rw [hcount, if_neg (hpart.not_mem_of_keep_le hp hz' h1 h2), hcounted.count z' hz' r h1 h2]
    exact Zone.countOf_congr (hdone z' hz' r h1 h2) (hfeeds z' hz' r h2)
  · rw [hpushed, hcounted.pushed z' hz' r h1 h2]
    exact Zone.freed_congr (hfeeds z' hz' r h2)
  · rw [hcount]
    by_cases hin : task.regionBeg ≤ r ∧ r < task.regionEnd
    · rw [if_pos hin]
      exact Or.inl ⟨Or.inr hin, rfl⟩
    · rw [if_neg hin, or_iff_left hin]
      exact hcounted.kept z' hz' r h1 h2

/-- What the table says of completed destinations still holds. -/
lemma keeps {t t' : RegionTable} (hkeeps : Upkeep.Keeps p done t)
    (hdeferred : ∀ x, (t'.regions.get x).deferred = (t.regions.get x).deferred) :
    Upkeep.Keeps p (fun r => done r ∨ (task.regionBeg ≤ r ∧ r < task.regionEnd)) t' where
  freed z' hz' r h1 h2 hdone :=
    (hkeeps.freed z' hz' r h1 h2 (hdone.resolve_right (hpart.not_mem_of_keep_le hp hz' h1 h2))).mono
      fun _ => Or.inl
  deferred z' hz' r h1 h2 hdone := by
    rw [hdeferred]
    exact hkeeps.deferred z' hz' r h1 h2
      (hdone.resolve_right (hpart.not_mem_of_keep_le hp hz' h1 h2))

end Plan.Part

namespace Heap

open Plan

variable {μ : Type} [ObjectModel μ] {K : Upkeep μ p} {h : Heap μ} {task : PrefixTask}

/-- Once everything in its regions has been seen to, the task is finished. -/
lemma completeTask_leads (hp : p.Valid) (hpart : p.Part done i z task)
    (hswept : K.Swept done (task.regionBeg * p.regionWords) (task.regionEnd * p.regionWords) h)
    {t t₁ : RegionTable} (hcounted : p.Counted t done fun q _ => done q)
    (hkeeps : Upkeep.Keeps p done t)
    (hclaimed : RegionTable.Counts p.objs task.regionBeg
      (task.regionEnd - task.regionBeg) claimedCount t t₁)
    (hrefilled : RegionTable.Refilled p.objs t₁ h.table) :
    Leads K.may (completePrefix (task.regionEnd - task.regionBeg) task.regionBeg) h fun _ h' =>
      K.Rests (fun r => done r ∨ (task.regionBeg ≤ r ∧ r < task.regionEnd)) h' := by
  have hserves := hswept.serves
  have hloaded := hserves.loaded
  have hlt := hpart.lt
  have hlast := (hp.ordered z hpart.mem).keep_le_last p.regionWords_pos
  have hkeep := hpart.le_keep
  have hstop : task.regionEnd ≤ h.table.geometry.regionCount := by
    have := hloaded.region_lt hp hpart.mem (r := task.regionEnd - 1) (by omega)
    omega
  have hmem : ∀ x, task.regionBeg ≤ x ∧ x < task.regionBeg + (task.regionEnd - task.regionBeg)
      ↔ task.regionBeg ≤ x ∧ x < task.regionEnd := fun x => by omega
  refine (completePrefix_runs p.objs hloaded.laid (by omega) fun x h1 h2 => ?_).leads.mono
    fun _ h' => ?_
  · rw [hrefilled.regions, hclaimed.regions, if_pos ⟨h1, h2⟩]
    exact Region.count_withCount _ _
  rintro ⟨t', rfl, hcompleted⟩
  have hserves' : p.Serves { h with table := t' } :=
    hserves.advance hcompleted.recounted.toAdvances rfl rfl rfl hserves.spaces
  refine ⟨?_, hpart.counted hp hcounted (fun x => ?_) (fun x => ?_),
    hpart.keeps hp hkeeps fun x => ?_⟩
  · obtain ⟨g, hg⟩ := hswept
    refine ⟨g, { hg with
      holds := K.withTable hg.holds hserves'
      filled_iff := fun x => (hg.filled_iff x).trans (hpart.settled_iff x).symm
      updated_iff := fun o => (hg.updated_iff o).trans (and_congr_right fun ho => ?_)
      closed := fun o ho hdone => hg.closed o ho (hdone.imp_right fun hin => ?_) }⟩
    · rw [hpart.region_iff hp ho, ← or_and_right]
    · exact ⟨(Nat.le_div_iff_mul_le p.regionWords_pos).1 hin.1,
        (Nat.div_lt_iff_lt_mul p.regionWords_pos).1 hin.2⟩
  · show (t'.regions.get x).count = _
    rw [hcompleted.regions, hrefilled.regions, hclaimed.regions]
    simp only [hmem]
    split
    · exact Region.count_withCount _ _
    · rfl
  · show (t'.regions.get x).pushed = _
    rw [hcompleted.regions, hrefilled.regions, hclaimed.regions]
    split <;> rfl
  · show (t'.regions.get x).deferred = _
    rw [hcompleted.recounted.deferred, hrefilled.recounted.deferred, hclaimed.recounted.deferred]

/-- A task takes one rest to the next. -/
theorem updatePrefix_leads (hK : K.ClosesHoles) (hp : p.Valid) (hpart : p.Part done i z task)
    (hrests : K.Rests done h) :
    Leads K.may (updatePrefix task) h fun _ h' =>
      K.Rests (fun r => done r ∨ (task.regionBeg ≤ r ∧ r < task.regionEnd)) h' := by
  have hserves := hrests.serves
  have hloaded := hserves.loaded
  have hlt := hpart.lt
  have hfirst := Nat.mul_le_mul_right p.regionWords hpart.first_le
  have hkeep := Nat.mul_le_mul_right p.regionWords hpart.le_keep
  have hlast := (hp.ordered z hpart.mem).keep_le_last p.regionWords_pos
  have hle := hpart.le_keep
  have hstop : task.regionEnd ≤ h.table.geometry.regionCount := by
    have := hloaded.region_lt hp hpart.mem (r := task.regionEnd - 1) (by omega)
    omega
  obtain ⟨s, hs, hmatches⟩ := hserves.exists_space hpart.zone
  obtain ⟨c, hown_eq, hown⟩ := ownStart_eq hp hserves hpart hmatches
  have hfree : ∀ x, task.regionBeg ≤ x → x < task.regionBeg + (task.regionEnd - task.regionBeg) →
      (h.table.regions.get x).count = 0 := fun x h1 h2 => by
    have hge := hpart.first_le
    rcases hrests.counted.kept z hpart.mem x (by omega) (by omega) with ⟨hdone, _⟩ | ⟨_, hcount⟩
    · exact absurd hdone (hpart.fresh x h1 (by omega))
    · exact hcount
  rw [updatePrefix, leads_bind, leads_get, leads_bind, hpart.space, space_eq hs,
    leads_check_ok, leads_bind]
  refine (claimPrefix_runs p.objs hloaded.laid (by omega) hfree).leads.mono fun _ h₁ => ?_
  rintro ⟨t, rfl, hclaimed⟩
  rw [leads_bind, hown_eq, leads_check_ok]
  extract_lets stop next visit
  have hstop_eq : stop = p.covered.addr (task.regionEnd * p.regionWords) := hloaded.regionStart_eq _
  have hserves₁ : p.Serves { h with table := t } :=
    hserves.advance hclaimed.recounted.toAdvances rfl rfl rfl hserves.spaces
  have hobjects : ∀ x, x ≤ c → x ≤ task.regionEnd * p.regionWords → ∀ o ∈ p.objs,
      task.regionBeg * p.regionWords ≤ o.start → x ≤ o.start := fun x h1 h2 o ho hbeg => by
    by_contra hlt
    have := hown.objects o ho hbeg (by omega)
    omega
  have hholes : ∀ x, x ≤ c → x ≤ task.regionEnd * p.regionWords → ∀ o, p.Hole o →
      task.regionBeg * p.regionWords ≤ o.start → x ≤ o.start := fun x h1 h2 o ho hbeg => by
    by_contra hlt
    have := hown.holes o (hp.hole_of_lt_keep hpart.mem ho (by omega) (by omega)) hbeg (by omega)
    omega
  rw [hstop_eq]
  split
  · rename_i hc
    rw [Extent.addr_lt_addr] at hc
    have hswept :=
      (hrests.swept (hobjects c le_rfl hc.le) (hholes c le_rfl hc.le)).withTable hserves₁
    obtain ⟨walk, heq, hwalk⟩ := sweepBetween_leads hK hp hpart hown hc hswept
    rw [hpart.space] at heq hwalk
    rw [hmatches.densePrefix, leads_bind, heq, leads_check_ok, leads_bind]
    refine hwalk.mono fun outcome h₂ hlead => ?_
    have hfinish : ∀ h₃,
        K.Swept done (task.regionBeg * p.regionWords) (task.regionEnd * p.regionWords) h₃
        ∧ RegionTable.Refilled p.objs t h₃.table →
        Leads K.may (next ()) h₃ fun _ h' =>
          K.Rests (fun r => done r ∨ (task.regionBeg ≤ r ∧ r < task.regionEnd)) h' :=
      fun _ hpost => completeTask_leads hp hpart hpost.1 hrests.counted hrests.keeps
        hclaimed hpost.2
    obtain ⟨_ | _ | _ | _, _ | straddler⟩ := outcome
    case incomplete.some => exact leads_bind.2 (hlead.mono fun _ => hfinish)
    all_goals exact hfinish _ (leads_pure.1 hlead)
  · rename_i hc
    rw [Extent.addr_lt_addr, not_lt] at hc
    have hswept := (hrests.swept (hobjects _ hc le_rfl) (hholes _ hc le_rfl)).withTable hserves₁
    exact completeTask_leads hp hpart hswept hrests.counted hrests.keeps hclaimed (.refl _ _)

end Heap

end MarkCompact
