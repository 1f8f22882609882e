import MarkCompact.Proofs.Filling

/-!
# Filling a region

A destination region takes its words from one source region after the other.
`K.Fills done D d r claimed h` says how far that has come: region `D` is filled up to word `d`, its
source regions below `r` are released and those that became available thereby are the ones in
`claimed`.  Between two fills the heap rests: `K.Rests done h`.

Main statements: `fillFrom_leads` (the loop over source regions) and `fillRegion_leads` (filling a
free region takes one rest to the next, frees the regions listed in the answer and fails at most as
the upkeep allows).
-/

namespace MarkCompact

variable {p : Plan} {done done' : ℕ → Prop} {taken taken' : ℕ → ℕ → Prop} {o : Span} {z : Zone}
  {objs : List Span} {D W a b c d i n r s stop w x : ℕ}

/-! ## Free regions -/

/-- The destinations in `done` have taken all their data, and destination `D` that from regions
below `r`. -/
def Taken (done : ℕ → Prop) (D r q x : ℕ) : Prop :=
  done q ∨ (q = D ∧ x < r)

/-- What destination `D` has taken when it has taken its data from `n` more regions. -/
lemma taken_add_iff {q : ℕ} :
    Taken done D (r + n) q x ↔ Taken done D r q x ∨ (q = D ∧ r ≤ x ∧ x < r + n) := by
  rw [Taken, Taken, or_assoc, ← and_or_left]
  exact or_congr_right (and_congr_right fun _ => by omega)

namespace Zone

lemma Freed.mono {taken taken' : ℕ → Prop} (h : z.Freed W objs taken r)
    (hmore : ∀ q, taken q → taken' q) :
    z.Freed W objs taken' r :=
  ⟨h.1, Nat.le_zero.1 (h.2 ▸ owed_mono hmore)⟩

lemma freed_congr {taken taken' : ℕ → Prop}
    (h : ∀ q, q < r → z.Feeds W objs r q → (taken q ↔ taken' q)) :
    z.Freed W objs taken r ↔ z.Freed W objs taken' r := by
  rw [Freed, Freed, owed_congr h]

/-- A region that still feeds an unfinished one is not free. -/
lemma not_freed_of_feeds {taken : ℕ → Prop} (h : z.Feeds W objs r D) (hlt : D < r)
    (hnot : ¬taken D) :
    ¬z.Freed W objs taken r :=
  fun hfreed => hnot (owed_eq_zero_iff.1 hfreed.2 D hlt h)

lemma countOf_congr {done done' taken taken' : ℕ → Prop} (hdone : done r ↔ done' r)
    (h : ∀ q, q < r → z.Feeds W objs r q → (taken q ↔ taken' q)) :
    z.countOf W objs done taken r = z.countOf W objs done' taken' r := by
  unfold countOf
  rw [owed_congr h]
  by_cases hfreed : z.Freed W objs taken r
  · rw [if_pos hfreed, if_pos ((freed_congr h).1 hfreed)]
    by_cases hr : done r
    · rw [if_pos hr, if_pos (hdone.1 hr)]
    · rw [if_neg hr, if_neg (hdone.not.1 hr)]
  · rw [if_neg hfreed, if_neg ((freed_congr h).not.1 hfreed)]

/-- A live word goes to region `D` exactly if its place is below the end of the fill. -/
lemma packed_lt_fillEnd (hkeep : z.keep * W ≤ w) (htop : w < z.top) (hw : Live objs w)
    (hplace : z.packed W objs w < D * W + W) : z.packed W objs w < z.fillEnd W objs D :=
  lt_min (packed_lt hkeep hw htop) hplace

/-- What is packed below the end of the fill lies below the top. -/
lemma lt_top_of_packed_lt (h : z.packed W objs x < z.fillEnd W objs D) : x < z.top := by
  by_contra hle
  have hmono := z.packed_mono W objs (not_lt.1 hle)
  have hend : z.fillEnd W objs D ≤ z.packed W objs z.top := min_le_left _ _
  omega

/-- A live word that goes to region `D` makes its region feed `D`. -/
lemma feeds_of_packed (hW : 0 < W) (hkeep : z.keep * W ≤ w) (hw : Live objs w)
    (h1 : D * W ≤ z.packed W objs w) (h2 : z.packed W objs w < D * W + W) :
    z.Feeds W objs (w / W) D := by
  obtain ⟨g1, g2⟩ := div_mul_bounds hW w
  exact (feeds_iff hW ((Nat.le_div_iff_mul_le hW).2 hkeep)).2
    ⟨w, g1, g2, hw, div_eq_of_bounds h1 h2⟩

end Zone

namespace Plan

/-- Region `r` can be filled, or has been, once the destinations have taken what `taken` says. -/
def Freed (p : Plan) (taken : ℕ → ℕ → Prop) (r : ℕ) : Prop :=
  ∃ z ∈ p.zones, z.Freed p.regionWords p.objs (taken · r) r

lemma Freed.mono (h : p.Freed taken r) (hmore : ∀ q x, taken q x → taken' q x) :
    p.Freed taken' r := by
  obtain ⟨z, hz, hfreed⟩ := h
  exact ⟨z, hz, hfreed.mono fun q => hmore q r⟩

lemma Valid.freed_iff (hp : p.Valid) (hz : z ∈ p.zones) (h1 : z.keep ≤ r) (h2 : r < z.last) :
    p.Freed taken r ↔ z.Freed p.regionWords p.objs (taken · r) r := by
  constructor
  · rintro ⟨z', hz', hfreed⟩
    have hlast := hfreed.1.lt_last (hp.ordered z' hz')
    obtain rfl := hp.eq_of_region hz hz' (le_trans (hp.ordered z hz).first_le_keep h1) h2
      (le_trans (hp.ordered z' hz').first_le_keep hfreed.1.1) hlast
    exact hfreed
  · exact fun hfreed => ⟨z, hz, hfreed⟩

/-- Counts depend only on what destinations have taken from regions that feed them. -/
lemma Counted.retake {t : RegionTable} (h : p.Counted t done taken)
    (hsame : ∀ z ∈ p.zones, ∀ q x, z.keep ≤ x → x < z.last → q < x →
      z.Feeds p.regionWords p.objs x q →
      (taken q x ↔ taken' q x)) : p.Counted t done taken' where
  count z hz r h1 h2 := by
    rw [h.count z hz r h1 h2]
    exact Zone.countOf_congr .rfl fun q hq => hsame z hz q r h1 h2 hq
  pushed z hz r h1 h2 := by
    rw [h.pushed z hz r h1 h2]
    exact Zone.freed_congr fun q hq => hsame z hz q r h1 h2 hq
  kept := h.kept

/-- Which regions are free depends only on what destinations have taken from regions that feed
them. -/
lemma Valid.freed_congr (hp : p.Valid)
    (hsame : ∀ z ∈ p.zones, ∀ q x, z.keep ≤ x → x < z.last → q < x →
      z.Feeds p.regionWords p.objs x q →
      (taken q x ↔ taken' q x)) (x : ℕ) : p.Freed taken x ↔ p.Freed taken' x := by
  refine exists_congr fun z => and_congr_right fun hz => ?_
  constructor
  · exact fun hfreed =>
      (Zone.freed_congr (hsame z hz · x hfreed.1.1 (hfreed.1.lt_last (hp.ordered z hz)))).1 hfreed
  · exact fun hfreed =>
      (Zone.freed_congr (hsame z hz · x hfreed.1.1 (hfreed.1.lt_last (hp.ordered z hz)))).2 hfreed

/-- A region that feeds one of zone `z` lies in zone `z`. -/
lemma Valid.eq_of_feeds (hp : p.Valid) {z' : Zone} (hz : z ∈ p.zones) (hz' : z' ∈ p.zones)
    (h1 : z.keep ≤ D) (h2 : D < z.last) (hlt : D < x) (hlast : x < z'.last)
    (hfeeds : z'.Feeds p.regionWords p.objs x D) : z' = z := by
  have h1' := (hp.ordered z hz).first_le_keep
  have h2' := (hp.ordered z' hz').first_le_keep
  have h3' := hfeeds.keep_le
  exact hp.eq_of_region hz' hz (by omega) (by omega) (by omega) h2

/-- Recorded block offsets do not matter for the counts. -/
lemma Counted.refilled {t t' : RegionTable} (h : p.Counted t done taken)
    (hrefilled : RegionTable.Refilled p.objs t t') :
    p.Counted t' done taken :=
  h.congr fun r => by rw [hrefilled.regions r]; exact ⟨rfl, rfl⟩

/-- What is noted at region `D` about an object that is split at its end: the new address of the
object, or zero. -/
inductive Deferred (p : Plan) (D : ℕ) : ℕ → Prop
  | none (whole : ∀ o ∈ p.objs, p.Split o → p.forward o.start / p.regionWords ≠ D) : Deferred p D 0
  | some {o : Span} (mem : o ∈ p.objs) (split : p.Split o)
      (region : p.forward o.start / p.regionWords = D) :
      Deferred p D (p.covered.addr (p.forward o.start))

end Plan

/-! ## Between fills, and during one -/

namespace Upkeep

variable {μ : Type} [ObjectModel μ] {K : Upkeep μ p} {h : Heap μ} {claimed : List ℕ}

/-- What the table says of the regions in `done`: each of them was free, and split objects are
noted. -/
structure Keeps (p : Plan) (done : ℕ → Prop) (t : RegionTable) : Prop where
  freed : ∀ z ∈ p.zones, ∀ r, z.keep ≤ r → r < z.last → done r → z.Freed p.regionWords p.objs done r
  deferred : ∀ z ∈ p.zones, ∀ r, z.keep ≤ r → r < z.last → done r →
    p.Deferred r (t.regions.get r).deferred

lemma Keeps.of_deferred {t t' : RegionTable} (hkeeps : Keeps p done t)
    (hsame : ∀ r, (t'.regions.get r).deferred = (t.regions.get r).deferred) : Keeps p done t' where
  freed := hkeeps.freed
  deferred z hz r h1 h2 hdone := by
    rw [hsame r]
    exact hkeeps.deferred z hz r h1 h2 hdone

/-- The regions in `done` are completed, and no other one has been begun. -/
structure Rests (K : Upkeep μ p) (done : ℕ → Prop) (h : Heap μ) : Prop where
  reached : ∃ g, K.Reaches (p.Settled done)
    (fun o => o ∈ p.objs ∧ done (p.forward o.start / p.regionWords) ∧ ¬p.Split o)
      (fun y => done (y / p.regionWords)) g h
  counted : p.Counted h.table done fun q _ => done q
  keeps : Keeps p done h.table

/-- Region `D` is filled up to word `d` and has released its source regions below `r`; `claimed`
became free thereby. -/
structure Fills (K : Upkeep μ p) (done : ℕ → Prop) (D d r : ℕ) (claimed : List ℕ)
    (h : Heap μ) : Prop where
  filled : K.FilledTo done D d h
  counted : p.Counted h.table done (Taken done D r)
  keeps : Keeps p done h.table
  nodup : claimed.Nodup
  mem_claimed : ∀ x, x ∈ claimed ↔ p.Freed (Taken done D r) x ∧ ¬p.Freed (fun q _ => done q) x

/-- How a fill of region `D` has ended. -/
structure Filled (K : Upkeep μ p) (done : ℕ → Prop) (D copied : ℕ) (out : List ℕ × ℕ)
    (h : Heap μ) : Prop where
  rests : K.Rests (fun r => done r ∨ r = D) h
  copied : out.2 = copied
  nodup : out.1.Nodup
  mem_claimed : ∀ x, x ∈ out.1 ↔ p.Freed (fun q _ => done q ∨ q = D) x
    ∧ ¬p.Freed (fun q _ => done q) x

lemma Rests.serves (hrests : K.Rests done h) : p.Serves h := by
  obtain ⟨g, hg⟩ := hrests.reached
  exact K.serves hg.holds

lemma Fills.serves (hfills : K.Fills done D d r claimed h) : p.Serves h :=
  hfills.filled.serves

/-- Going on filling from a heap with the same counts. -/
lemma Fills.refilled {h' : Heap μ} (hfills : K.Fills done D d r claimed h)
    (hrefilled : RegionTable.Refilled p.objs h.table h'.table) {d' : ℕ}
    (hfilled : K.FilledTo done D d' h') :
    K.Fills done D d' r claimed h' where
  filled := hfilled
  counted := hfills.counted.refilled hrefilled
  keeps := hfills.keeps.of_deferred hrefilled.recounted.deferred
  nodup := hfills.nodup
  mem_claimed := hfills.mem_claimed

/-- Source regions that do not feed the destination need not be released. -/
lemma Fills.retake (hfills : K.Fills done D d r claimed h) (hp : p.Valid)
    (ht : p.Target done i z D) {r' : ℕ}
    (hsame : ∀ x, z.keep ≤ x → x < z.last → D < x → z.Feeds p.regionWords p.objs x D →
      (x < r ↔ x < r')) :
    K.Fills done D d r' claimed h := by
  have htaken : ∀ z' ∈ p.zones, ∀ q x, z'.keep ≤ x → x < z'.last → q < x →
      z'.Feeds p.regionWords p.objs x q →
      (Taken done D r q x ↔ Taken done D r' q x) := by
    intro z' hz' q x h1 h2 hq hfeeds
    refine or_congr_right (and_congr_right fun heq => ?_)
    subst heq
    obtain rfl := hp.eq_of_feeds ht.mem hz' ht.keep_le (ht.lt_last hp) hq h2 hfeeds
    exact hsame x h1 h2 hq hfeeds
  refine { hfills with counted := hfills.counted.retake htaken, mem_claimed := fun x => ?_ }
  rw [hfills.mem_claimed, hp.freed_congr htaken]

end Upkeep

/-! ## Releasing and finishing -/

namespace Plan.Target

variable (ht : p.Target done i z D) (hp : p.Valid)
include ht

lemma lt_newTop : D * p.regionWords < z.newTop p.regionWords p.objs :=
  ht.freed.1.2

lemma lt_fillEnd : D * p.regionWords < z.fillEnd p.regionWords p.objs D := by
  have := p.regionWords_pos
  exact lt_min ht.lt_newTop (by omega)

include hp

/-- An object of the packed part ends below the top. -/
lemma past_le_top (ho : o ∈ p.objs) (hkeep : z.keep * p.regionWords ≤ o.start)
    (htop : o.start < z.top) : o.past ≤ z.top := by
  have hfirst := Nat.mul_le_mul_right p.regionWords (hp.ordered z ht.mem).first_le_keep
  exact (hp.has_of_mem ht.mem ho (Span.covers_start (hp.separate.words_pos o ho))
    ((hp.ordered z ht.mem).has_of_le (le_trans hfirst hkeep) htop)).2

/-- Holes lie in dense prefixes. -/
lemma hole_div_ne (ho : p.Hole o) : o.start / p.regionWords ≠ D := by
  rintro heq
  obtain ⟨h1, h2⟩ := div_mul_bounds p.regionWords_pos o.start
  rw [heq] at h1 h2
  obtain ⟨hhas, hkeep⟩ := ht.has hp h1 h2
  obtain ⟨z', hz', hole⟩ := ho
  have hpos := hole.pos
  have hpast := hole.past_le
  have htop := (hp.ordered z' hz').keep_le_top
  have hlast := (hp.ordered z' hz').top_le_last
  rw [Span.past] at hpast
  obtain rfl := hp.eq_of_has ht.mem hz' hhas ⟨hole.first_le, by omega⟩
  omega

/-- The live words that go to the region go below the end of the fill. -/
lemma forward_lt_fillEnd (hw : Live p.objs w) (h1 : D * p.regionWords ≤ p.forward w)
    (h2 : p.forward w < D * p.regionWords + p.regionWords) :
    p.forward w < z.fillEnd p.regionWords p.objs D := by
  obtain ⟨hhas, hkeep⟩ := ht.has hp h1 h2
  obtain ⟨z', hz', hhas', htop⟩ := hp.exists_zone hw
  obtain rfl := hp.eq_of_has ht.mem hz' hhas (hp.has_forward hz' hhas')
  have hle := hp.forward_le hw
  rw [Heap.forward_eq_packed hp ht.mem (by omega) htop] at h2 ⊢
  exact Zone.packed_lt_fillEnd (by omega) htop hw h2

/-- An object that is split at the end of the region takes the last place of it. -/
lemma eq_of_split {o' : Span} (ho : o ∈ p.objs)
    (h1 : p.forward o.start < z.fillEnd p.regionWords p.objs D)
    (h2 : z.fillEnd p.regionWords p.objs D ≤ p.forward o.start + o.words) (ho' : o' ∈ p.objs)
    (hsplit : p.Split o') (hregion : p.forward o'.start / p.regionWords = D) : o' = o := by
  have hpos := hp.separate.words_pos o' ho'
  have hover := hsplit.2
  have hend : z.fillEnd p.regionWords p.objs D ≤ D * p.regionWords + p.regionWords :=
    min_le_right _ _
  obtain ⟨g1, g2⟩ := div_mul_bounds p.regionWords_pos (p.forward o'.start)
  rw [hregion] at g1 g2 hover
  have hlt := ht.forward_lt_fillEnd hp (live_of_mem ho' (Span.covers_start hpos)) g1 g2
  -- Both objects have the last word that is filled.
  exact hp.eq_of_place (y := z.fillEnd p.regionWords p.objs D - 1) ho' ho (by omega) (by omega)
    (by omega) (by omega)

/-- Nothing is noted at the region if the object that takes the last place ends there or began in an
earlier region. -/
lemma deferred_none (ho : o ∈ p.objs) (h1 : p.forward o.start < z.fillEnd p.regionWords p.objs D)
    (h2 : z.fillEnd p.regionWords p.objs D ≤ p.forward o.start + o.words)
    (hwhole : p.forward o.start + o.words = z.fillEnd p.regionWords p.objs D
      ∨ p.forward o.start < D * p.regionWords) :
    p.Deferred D 0 := by
  refine .none fun o' ho' hsplit hregion => ?_
  obtain rfl := ht.eq_of_split hp ho h1 h2 ho' hsplit hregion
  have hover := hsplit.2
  have hend : z.fillEnd p.regionWords p.objs D ≤ D * p.regionWords + p.regionWords :=
    min_le_right _ _
  have hlow := mul_le_of_le_div hregion.ge
  rw [hregion] at hover
  omega

/-- An object that begins in the region and is longer than what is left of it is noted. -/
lemma deferred_some (ho : o ∈ p.objs) (hkeep : z.keep * p.regionWords ≤ o.start)
    (htop : o.start < z.top) (hlow : D * p.regionWords ≤ p.forward o.start)
    (h1 : p.forward o.start < z.fillEnd p.regionWords p.objs D)
    (h2 : z.fillEnd p.regionWords p.objs D < p.forward o.start + o.words) :
    p.Deferred D (p.covered.addr (p.forward o.start)) := by
  have hz := hp.ordered z ht.mem
  have hend : z.fillEnd p.regionWords p.objs D ≤ D * p.regionWords + p.regionWords :=
    min_le_right _ _
  have hregion : p.forward o.start / p.regionWords = D := div_eq_of_bounds hlow (by omega)
  have hholds := hp.has_of_mem ht.mem ho (Span.covers_start (hp.separate.words_pos o ho))
    (hz.has_of_le (le_trans (Nat.mul_le_mul_right _ hz.first_le_keep) hkeep) htop)
  -- The object goes past the end of the fill but not past the new top, so the fill ends with the
  -- region.
  have hpast := Heap.packed_past hp ht.mem ho hkeep htop
  have hmono := z.packed_mono p.regionWords p.objs (ht.past_le_top hp ho hkeep htop)
  have hfull : z.fillEnd p.regionWords p.objs D = D * p.regionWords + p.regionWords := by
    rw [Zone.fillEnd, Zone.newTop] at h2 ⊢
    omega
  refine .some ho ⟨⟨z, ht.mem, hholds, hkeep⟩, ?_⟩ hregion
  rw [hregion]
  omega

/-- Behind the word from which on data goes to later regions, no region feeds `D`. -/
lemma lt_of_feeds (hb : z.fillEnd p.regionWords p.objs D ≤ z.packed p.regionWords p.objs b)
    (hx : z.keep ≤ x) (hlast : x < z.last) (hfeeds : z.Feeds p.regionWords p.objs x D) :
    x * p.regionWords < b := by
  have hW := p.regionWords_pos
  obtain ⟨w, g1, g2, hw, heq⟩ := (Zone.feeds_iff hW hx).1 hfeeds
  have hmul := Nat.mul_le_mul_right p.regionWords (show x + 1 ≤ z.last from hlast)
  have hkeep := Nat.mul_le_mul_right p.regionWords hx
  rw [Nat.succ_mul] at hmul
  obtain ⟨hd1, hd2⟩ := div_mul_bounds hW (z.packed p.regionWords p.objs w)
  rw [heq] at hd1 hd2
  have htop := (hp.bounds ht.mem).mem_top_of_live hw (by omega) (hp.ordered z ht.mem)
  have hplace := Zone.packed_lt_fillEnd (by omega) htop hw hd2
  by_contra hle
  have := z.packed_mono p.regionWords p.objs (show b ≤ w by omega)
  omega

end Plan.Target

/-- Placing part of an object completes none. -/
lemma Upkeep.Reaches.part {μ : Type} [ObjectModel μ] {K : Upkeep μ p} {h : Heap μ} {g : Progress}
    (hg : K.Reaches (p.Reached done D (d + n))
      (p.UpdatedTo done D d) (fun y => done (y / p.regionWords)) g h) (hp : p.Valid)
    (ho : o ∈ p.objs) (h1 : o.start ≤ s) (h2 : s + n ≤ o.past) (hforward : p.forward s = d)
    (hpart : p.forward o.start < D * p.regionWords ∨ d + n < p.forward o.start + o.words) :
    K.FilledTo done D (d + n) h := by
  refine ⟨g, { hg with updated_iff := fun o' => (hg.updated_iff o').trans ?_ }⟩
  by_cases heq : o' = o
  · subst heq
    exact (Plan.updatedTo_part hpart).symm
  · exact (Plan.updatedTo_of_ne hp ho h1 h2 hforward heq).symm

namespace Heap

open Plan

variable {μ : Type} [ObjectModel μ] {K : Upkeep μ p} {h : Heap μ} {f : Filling} {g : Progress}
  {claimed : List ℕ}

/-- The regions that become free when `n` more source regions of the region are released are among
these. -/
lemma freed_release_iff (hp : p.Valid) (ht : p.Target done i z D)
    (hrange : ∀ x, r ≤ x → x < r + n → D < x ∧ x < z.last ∧ z.Feeds p.regionWords p.objs x D) :
    (r ≤ x ∧ x < r + n) ∧ z.Freed p.regionWords p.objs (Taken done D (r + n) · x) x
      ↔ p.Freed (Taken done D (r + n)) x ∧ ¬p.Freed (Taken done D r) x := by
  have hnot : ∀ x, r ≤ x → ¬Taken done D r D x :=
    fun x hx htaken => htaken.elim ht.fresh fun hlt => by omega
  constructor
  · rintro ⟨⟨h1, h2⟩, hfreed⟩
    obtain ⟨hDx, hlast, hfeeds⟩ := hrange x h1 h2
    refine ⟨⟨z, ht.mem, hfreed⟩, fun hbefore => ?_⟩
    exact Zone.not_freed_of_feeds hfeeds hDx (hnot x h1)
      ((hp.freed_iff ht.mem (ht.keep_le.trans hDx.le) hlast).1 hbefore)
  · rintro ⟨⟨z', hz', hfreed⟩, hbefore⟩
    by_cases hx : r ≤ x ∧ x < r + n
    · obtain ⟨hDx, hlast, _⟩ := hrange x hx.1 hx.2
      exact ⟨hx, (hp.freed_iff ht.mem (ht.keep_le.trans hDx.le) hlast).1 ⟨z', hz', hfreed⟩⟩
    · refine absurd ⟨z', hz', ?_⟩ hbefore
      refine (Zone.freed_congr fun q _ _ => ?_).1 hfreed
      rw [taken_add_iff]
      exact or_iff_left fun hq => hx ⟨hq.2.1, hq.2.2⟩

/-- Source regions up to word `stop` are released. -/
lemma release_leads (hp : p.Valid) (ht : p.Target done i z D)
    (hfills : K.Fills done D d r claimed h) (hstop : stop ≤ z.top)
    (hrange : ∀ x, r ≤ x → x * p.regionWords < stop → D < x ∧ z.Feeds p.regionWords p.objs x D) :
    Leads K.may (release (upTo p.regionWords (z.newTop p.regionWords p.objs)) r
      (p.covered.addr stop) claimed) h
      fun claimed' h' => K.Fills done D d (max r (upTo p.regionWords stop)) claimed' h' := by
  have hW := p.regionWords_pos
  have hserves := hfills.serves
  have hloaded := hserves.loaded
  have hz := hp.ordered z ht.mem
  have htop := le_trans hz.top_le_last hz.last_le
  have hupTo : h.table.regionUpTo (p.covered.addr stop) = .ok (upTo p.regionWords stop) := by
    rw [← hloaded.covered, hloaded.laid.regionUpTo_addr (by rw [hloaded.covered]; omega),
      hloaded.regionWords_eq]
  rw [show max r (upTo p.regionWords stop) = r + (upTo p.regionWords stop - r) by omega]
  have hrange' : ∀ x, r ≤ x → x < r + (upTo p.regionWords stop - r) →
      D < x ∧ x < z.last ∧ z.Feeds p.regionWords p.objs x D := by
    intro x h1 h2
    have hlt : x * p.regionWords < stop := (lt_upTo_iff hW).1 (by omega)
    obtain ⟨hDx, hfeeds⟩ := hrange x h1 hlt
    exact ⟨hDx, Nat.lt_of_mul_lt_mul_right (a := p.regionWords) (by have := hz.top_le_last; omega),
      hfeeds⟩
  generalize hn : upTo p.regionWords stop - r = n at hrange' ⊢
  have hnew : ∀ x, r ≤ x → x < r + n → D < x ∧ x < z.last ∧ z.keep ≤ x
      ∧ z.Feeds p.regionWords p.objs x D ∧ ¬Taken done D r D x
      ∧ ¬done x := by
    intro x h1 h2
    obtain ⟨hDx, hlast, hfeeds⟩ := hrange' x h1 h2
    have hkeep := le_trans ht.keep_le hDx.le
    refine ⟨hDx, hlast, hkeep, hfeeds, fun htaken => htaken.elim ht.fresh fun hlt => by omega,
      fun hdone => ?_⟩
    exact Zone.not_freed_of_feeds hfeeds hDx ht.fresh
      (hfills.keeps.freed z ht.mem x hkeep hlast hdone)
  rw [release]
  simp only [leads_bind, leads_get]
  rw [hupTo, leads_check_ok, hn]
  refine (releaseRegions_runs hp hloaded hfills.counted ht.mem hnew (fun x => lt_upTo_iff hW)
    fun q x => taken_add_iff).leads.mono
    fun claimed' h' => ?_
  rintro ⟨t, fresh, rfl, hadv, hcounted, rfl, hfrees⟩
  obtain ⟨g, hg⟩ := hfills.filled
  have hfresh' : ∀ x, x ∈ fresh ↔ p.Freed (Taken done D (r + n)) x ∧ ¬p.Freed (Taken done D r) x :=
    fun x =>
    (hfrees.mem_iff x).trans (freed_release_iff hp ht hrange')
  refine ⟨⟨g, { hg with
    holds := K.withTable hg.holds (hserves.advance hadv.toAdvances rfl rfl rfl hserves.spaces) }⟩,
    hcounted, hfills.keeps.of_deferred hadv.deferred, ?_, fun x => ?_⟩
  · refine List.nodup_append.2 ⟨hfrees.nodup, hfills.nodup, fun x hx y hy => ?_⟩
    rintro rfl
    exact ((hfresh' x).1 hx).2 ((hfills.mem_claimed x).1 hy).1
  · rw [List.mem_append, hfresh', hfills.mem_claimed]
    constructor
    · rintro (⟨hafter, hnot⟩ | ⟨hbefore, hnot⟩)
      · exact ⟨hafter, fun hdone => hnot (hdone.mono fun q x => Or.inl)⟩
      · exact ⟨hbefore.mono fun q x htaken => taken_add_iff.2 (Or.inl htaken), hnot⟩
    · rintro ⟨hafter, hnot⟩
      by_cases hbefore : p.Freed (Taken done D r) x
      · exact Or.inr ⟨hbefore, hnot⟩
      · exact Or.inl ⟨hafter, hbefore⟩

/-- What is settled once the region is completed. -/
lemma settled_insert (done : ℕ → Prop) (D x : ℕ) : p.Settled (fun r => done r ∨ r = D) x
    ↔ p.Settled done x ∨ (D * p.regionWords ≤ x ∧ x < D * p.regionWords + p.regionWords) := by
  have hW := p.regionWords_pos
  have hregion : x / p.regionWords = D
      ↔ D * p.regionWords ≤ x ∧ x < D * p.regionWords + p.regionWords :=
    ⟨fun heq => heq ▸ div_mul_bounds hW x, fun hx => div_eq_of_bounds hx.1 hx.2⟩
  rw [Settled, Settled, hregion, or_assoc]

/-- What has been updated once the region is filled to its end. -/
lemma updatedTo_fillEnd (hp : p.Valid) (ht : p.Target done i z D) :
    p.UpdatedTo done D (z.fillEnd p.regionWords p.objs D) o
      ↔ o ∈ p.objs ∧ (done (p.forward o.start / p.regionWords) ∨ p.forward o.start / p.regionWords
        = D) ∧ ¬p.Split o := by
  have hW := p.regionWords_pos
  refine and_congr_right fun ho => ?_
  have hpos := hp.separate.words_pos o ho
  have hlive : Live p.objs o.start := live_of_mem ho (Span.covers_start hpos)
  have hend : z.fillEnd p.regionWords p.objs D ≤ D * p.regionWords + p.regionWords :=
    min_le_right _ _
  constructor
  · rintro (⟨hdone, hwhole⟩ | ⟨h1, h2⟩)
    · exact ⟨Or.inl hdone, hwhole⟩
    · have hregion : p.forward o.start / p.regionWords = D := div_eq_of_bounds h1 (by omega)
      refine ⟨Or.inr hregion, fun hsplit => ?_⟩
      have := hsplit.2
      rw [hregion] at this
      omega
  · rintro ⟨hdone | hregion, hwhole⟩
    · exact Or.inl ⟨hdone, hwhole⟩
    · -- The object lies above the prefix of the zone, so it is split unless it ends in the region.
      obtain ⟨h1, h2⟩ := div_mul_bounds hW (p.forward o.start)
      rw [hregion] at h1 h2
      obtain ⟨hhas, hkeep⟩ := ht.has hp h1 h2
      obtain ⟨z', hz', hholds⟩ := hp.holds o ho
      have hhas' := hholds.has (hp.ordered z' hz') (Span.covers_start hpos)
      obtain rfl := hp.eq_of_has ht.mem hz' hhas (hp.has_forward hz' hhas')
      have hle := hp.forward_le hlive
      have hpast :=
        packed_past hp ht.mem ho (by omega) (lt_of_lt_of_le (hp.separate.start_lt_past ho) hholds.2)
      have htop := z.packed_mono p.regionWords p.objs hholds.2
      refine Or.inr ⟨h1, le_min (by rw [← hpast]; exact htop) ?_⟩
      by_contra hlt
      exact hwhole ⟨⟨z, ht.mem, hholds, by omega⟩, by rw [hregion]; omega⟩

/-- A zone that the region lies in is its zone. -/
lemma eq_zone (hp : p.Valid) (ht : p.Target done i z D) {z' : Zone} (hz' : z' ∈ p.zones)
    (h1 : z'.first ≤ D) (h2 : D < z'.last) :
    z' = z :=
  hp.eq_of_region hz' ht.mem h1 h2 (le_trans (hp.ordered z ht.mem).first_le_keep ht.keep_le)
    (ht.lt_last hp)

/-- The counts when the region has been completed. -/
lemma counted_complete (hp : p.Valid) (ht : p.Target done i z D) {t : RegionTable}
    (hloaded : p.Loaded t) (hcounted : p.Counted t done fun q _ => done q ∨ q = D)
    (hfreed : z.Freed p.regionWords p.objs (fun q => done q ∨ q = D) D) {a : Region}
    (hcount : a.count = completedCount) (hpushed : a.pushed = true) :
    p.Counted (t.setRegion D a) (fun r => done r ∨ r = D) fun q _ => done q ∨ q = D := by
  have hself :=
    hloaded.laid.get_setRegion_self (a := a) (hloaded.region_lt hp ht.mem (ht.lt_last hp))
  have hfirst : ∀ z' ∈ p.zones, z'.first ≤ z'.keep :=
    fun z' hz' => (hp.ordered z' hz').first_le_keep
  refine ⟨fun z' hz' r h1 h2 => ?_, fun z' hz' r h1 h2 => ?_, fun z' hz' r h1 h2 => ?_⟩
  · by_cases hr : r = D
    · subst hr
      obtain rfl := eq_zone hp ht hz' (le_trans (hfirst z' hz') h1) h2
      rw [hself, hcount, Zone.countOf, if_pos hfreed, if_pos (Or.inr rfl)]
    · rw [RegionTable.Laid.get_setRegion_of_ne hr, hcounted.count z' hz' r h1 h2]
      exact Zone.countOf_congr (or_iff_left hr).symm fun _ _ _ => .rfl
  · by_cases hr : r = D
    · subst hr
      obtain rfl := eq_zone hp ht hz' (le_trans (hfirst z' hz') h1) h2
      rw [hself]
      exact iff_of_true hpushed hfreed
    · rw [RegionTable.Laid.get_setRegion_of_ne hr]
      exact hcounted.pushed z' hz' r h1 h2
  · -- The region does not lie in a dense prefix.
    have hr : r ≠ D := by
      rintro rfl
      obtain rfl :=
        eq_zone hp ht hz' h1
          (lt_of_lt_of_le h2 ((hp.ordered z' hz').keep_le_last p.regionWords_pos))
      exact absurd ht.keep_le (not_le.2 h2)
    rw [RegionTable.Laid.get_setRegion_of_ne hr, or_iff_left hr]
    exact hcounted.kept z' hz' r h1 h2

/-- What is known of completed regions when the region is one of them. -/
lemma keeps_complete (hp : p.Valid) (ht : p.Target done i z D) {t : RegionTable}
    (hloaded : p.Loaded t) (hkeeps : Upkeep.Keeps p done t)
    (hfreed : z.Freed p.regionWords p.objs (fun q => done q ∨ q = D) D) {a : Region}
    (hdeferred : p.Deferred D a.deferred) :
    Upkeep.Keeps p (fun r => done r ∨ r = D) (t.setRegion D a) := by
  have hself :=
    hloaded.laid.get_setRegion_self (a := a) (hloaded.region_lt hp ht.mem (ht.lt_last hp))
  refine ⟨fun z' hz' r h1 h2 hdone => ?_, fun z' hz' r h1 h2 hdone => ?_⟩
  · rcases hdone with hdone | rfl
    · exact (hkeeps.freed z' hz' r h1 h2 hdone).mono fun _ => Or.inl
    · obtain rfl := eq_zone hp ht hz' (le_trans (hp.ordered z' hz').first_le_keep h1) h2
      exact hfreed
  · by_cases hr : r = D
    · subst hr
      rw [hself]
      exact hdeferred
    · rw [RegionTable.Laid.get_setRegion_of_ne hr]
      exact hkeeps.deferred z' hz' r h1 h2 (hdone.resolve_right hr)

/-- What has been reached when the region is completed. -/
lemma reached_complete (hp : p.Valid) (ht : p.Target done i z D) {t : RegionTable}
    (hfilled : K.FilledTo done D (z.fillEnd p.regionWords p.objs D) h)
    (hserves : p.Serves { h with table := t }) :
    ∃ g, K.Reaches (p.Settled fun r => done r ∨ r = D)
      (fun o => o ∈ p.objs ∧ (done (p.forward o.start / p.regionWords)
        ∨ p.forward o.start / p.regionWords = D) ∧ ¬p.Split o)
      (fun y => done (y / p.regionWords) ∨ y / p.regionWords = D) g { h with table := t } := by
  obtain ⟨g, hg⟩ := hfilled
  refine ⟨{ g with filled := p.Settled fun r => done r ∨ r = D }, { hg with
    holds := K.widen (K.withTable hg.holds hserves) (fun x hx => ?_) (fun x hx hnot w hw heq => ?_)
      (fun w hw hx hnot => ?_)
    filled_iff := fun _ => .rfl
    updated_iff := fun o => (hg.updated_iff o).trans (updatedTo_fillEnd hp ht)
    closed :=
      fun o ho hdone => hg.closed o ho (hdone.resolve_right fun heq => ht.hole_div_ne hp ho heq) }⟩
  · exact (settled_insert done D x).2 ((hg.filled_iff x).1 hx |>.imp_right fun hx => ⟨hx.1,
      lt_of_lt_of_le hx.2 (min_le_right _ _)⟩)
  · -- Every live word that goes to the region goes below the end of the fill.
    rw [hg.filled_iff] at hnot
    rcases (settled_insert done D x).1 hx with hsettled | ⟨h1, h2⟩
    · exact hnot (Or.inl hsettled)
    · exact hnot (Or.inr ⟨h1, heq ▸ ht.forward_lt_fillEnd hp hw (heq.symm ▸ h1) (heq.symm ▸ h2)⟩)
  · rw [hg.filled_iff] at hnot
    refine (settled_insert done D _).2 ?_
    rcases (settled_insert done D w).1 hx with hsettled | ⟨h1, h2⟩
    · exact absurd (Or.inl hsettled) hnot
    · exact (ht.settled_of_live hp hw h1 h2).imp_right fun hge =>
        ⟨hge, lt_of_le_of_lt (hp.forward_le hw) h2⟩

/-- The region is completed; what is left is the next rest. -/
lemma finishRegion_leads (hp : p.Valid) (ht : p.Target done i z D) {plan : FillPlan}
    (hplan : plan.region = D)
    (hfills : K.Fills done D (z.fillEnd p.regionWords p.objs D) r claimed h)
    (hall : ∀ x, z.keep ≤ x → x < z.last → D < x → z.Feeds p.regionWords p.objs x D → x < r)
    {deferred copied : ℕ} (hdeferred : p.Deferred D deferred) :
    Leads K.may (finishRegion plan deferred >>= fun _ => pure (claimed, copied)) h fun out h' =>
      K.Filled done D copied out h' := by
  have hserves := hfills.serves
  have hloaded := hserves.loaded
  have hkeepD := ht.keep_le
  have hlastD := ht.lt_last hp
  have hD := hloaded.region_lt hp ht.mem hlastD
  -- Everything that feeds the region has been taken.
  have htaken : ∀ z' ∈ p.zones, ∀ q x, z'.keep ≤ x → x < z'.last → q < x →
      z'.Feeds p.regionWords p.objs x q →
      (Taken done D r q x ↔ done q ∨ q = D) := by
    intro z' hz' q x h1 h2 hq hfeeds
    refine or_congr_right (and_iff_left_of_imp fun heq => ?_)
    subst heq
    obtain rfl := hp.eq_of_feeds ht.mem hz' hkeepD hlastD hq h2 hfeeds
    exact hall x h1 h2 hq hfeeds
  have hcounted := hfills.counted.retake htaken
  have hfreed : z.Freed p.regionWords p.objs (fun q => done q ∨ q = D) D :=
    ht.freed.mono fun _ => Or.inl
  have hcount : (h.table.regions.get D).count = claimedCount := by
    rw [hcounted.count z ht.mem D hkeepD hlastD, Zone.countOf_of_freed hfreed ht.fresh]
  have hpushed : (h.table.regions.get D).pushed = true :=
    (hcounted.pushed z ht.mem D hkeepD hlastD).2 hfreed
  have hcomplete : ({ h.table.regions.get D with deferred } : Region).complete
      = .ok (Region.withCount { h.table.regions.get D with deferred } completedCount) :=
        Region.complete_eq hcount
  rw [finishRegion, leads_bind,
    leads_onTable (RegionTable.Laid.update_eq (by rw [hplan]; exact hD)
      (by rw [hplan]; exact hcomplete)),
    leads_pure, hplan]
  have hadv : RegionTable.Advances p.objs h.table
      (h.table.setRegion D (Region.withCount { h.table.regions.get D with
        deferred } completedCount)) :=
    RegionTable.advances_setRegion hloaded.laid hD
      ⟨rfl, rfl, rfl, Region.liveWords_withCount _ _⟩ rfl
  exact
    { rests :=
        { reached := reached_complete hp ht hfills.filled
            (hserves.advance hadv rfl rfl rfl hserves.spaces)
          counted := counted_complete hp ht hloaded hcounted hfreed (Region.count_withCount _ _)
            ((Region.pushed_withCount _ _).trans hpushed)
          keeps := keeps_complete hp ht hloaded hfills.keeps hfreed hdeferred }
      copied := rfl
      nodup := hfills.nodup
      mem_claimed := fun x => by rw [hfills.mem_claimed, hp.freed_congr htaken] }

/-! ## From source region to source region -/

end Heap

/-- The words from `a` on are read for region `D`, whose source regions are to be released from `r`
on. -/
inductive Zone.Reads (z : Zone) (W : ℕ) (objs : List Span) (D a : ℕ) : ℕ → Prop
  | other (lt : D < a / W) (feeds : z.Feeds W objs (a / W) D) : z.Reads W objs D a (a / W)
  | self (eq : a / W = D) : z.Reads W objs D a (D + 1)

/-- Region `D` is filled up to where the objects from the boundary `a` on go. -/
structure Upkeep.Stands {μ : Type} [ObjectModel μ] (K : Upkeep μ p) (done : ℕ → Prop) (i : ℕ)
    (z : Zone) (D a r : ℕ) (claimed : List ℕ) (f : Filling) (h : Heap μ) : Prop where
  fills : K.Fills done D (z.packed p.regionWords p.objs a) r claimed h
  boundary : Boundary p.objs a
  low : D * p.regionWords ≤ z.packed p.regionWords p.objs a
  lt : z.packed p.regionWords p.objs a < z.fillEnd p.regionWords p.objs D
  reads : z.Reads p.regionWords p.objs D a r
  progress : p.At f i D a (z.packed p.regionWords p.objs a)
    (z.fillEnd p.regionWords p.objs D - z.packed p.regionWords p.objs a)

lemma Zone.Reads.bounds (hreads : z.Reads W objs D a r) :
    D * W ≤ a ∧ a / W ≤ r ∧ r ≤ a / W + 1 ∧ D < r := by
  cases hreads with
  | other lt feeds =>
    have := mul_le_of_le_div lt.le
    omega
  | self eq =>
    have := mul_le_of_le_div (Nat.le_of_eq eq.symm)
    omega

namespace Zone.Reads

/-- The region that is read feeds region `D`, unless it is `D`. -/
lemma feeds (hreads : z.Reads W objs D a r) (hx : r ≤ x) (hlt : x * W < (a / W + 1) * W) :
    D < x ∧ z.Feeds W objs x D := by
  have hle := Nat.lt_of_mul_lt_mul_right hlt
  cases hreads with
  | other lt feeds =>
    obtain rfl : x = a / W := by omega
    exact ⟨lt, feeds⟩
  | self eq => omega

/-- Which words are read in the region does not matter. -/
lemma congr (hreads : z.Reads W objs D a r) (h : a / W = b / W) : z.Reads W objs D b r := by
  cases hreads with
  | other lt feeds =>
    rw [h] at lt feeds ⊢
    exact .other lt feeds
  | self eq => exact .self (h ▸ eq)

/-- So do the regions up to a word `b` of an object that starts in the stretch that is read, if no
word in front of `b` goes past region `D`. -/
lemma feeds_upTo (hreads : z.Reads W objs D a r) (hW : 0 < W) (hkeep : z.keep * W ≤ a)
    (hlow : D * W ≤ z.packed W objs a) (ho : o ∈ objs) (hstart : o.start < (a / W + 1) * W)
    (hb : b ≤ o.past) (hhigh : z.packed W objs b ≤ D * W + W) (hx : r ≤ x) (hlt : x * W < b) :
    D < x ∧ z.Feeds W objs x D := by
  by_cases hread : x * W < (a / W + 1) * W
  · exact hreads.feeds hx hread
  · have hnext := (div_mul_bounds hW a).2
    rw [Nat.succ_mul] at hread hstart
    have hlive : Live objs (x * W) := live_of_mem ho ⟨by omega, by omega⟩
    have hmono := z.packed_mono W objs (show a ≤ x * W by omega)
    have hplace := Zone.packed_lt (show z.keep * W ≤ x * W by omega) hlive hlt
    have hfeeds :=
      Zone.feeds_of_packed (D := D) hW (show z.keep * W ≤ x * W by omega) hlive
        (by omega) (by omega)
    rw [Nat.mul_div_cancel x hW] at hfeeds
    have hDa := hreads.bounds.1
    exact ⟨Nat.lt_of_mul_lt_mul_right (a := W) (by omega), hfeeds⟩

end Zone.Reads

namespace Heap

open Plan

variable {μ : Type} [ObjectModel μ] {K : Upkeep μ p} {h : Heap μ} {f : Filling} {claimed : List ℕ}

/-- The first region with data from region `n` on feeds region `D`, if what follows goes there. -/
lemma feeds_of_data (hkeep : z.keep ≤ n) (hnr : n ≤ r) (hdata : dataOf p.objs p.regionWords r ≠ 0)
    (hsame : liveBelow p.objs (r * p.regionWords) = liveBelow p.objs (n * p.regionWords))
    (hlow : D * p.regionWords ≤ z.packed p.regionWords p.objs (n * p.regionWords))
    (hhigh : z.packed p.regionWords p.objs
      (n * p.regionWords) < D * p.regionWords + p.regionWords) :
    z.Feeds p.regionWords p.objs r D := by
  have hgrow := liveBelow_add_dataOf p.objs p.regionWords r
  have hmul := Nat.mul_le_mul_right p.regionWords (hkeep.trans hnr)
  obtain ⟨w, hw1, hw2, hw, hwcount⟩ := exists_first_live
    (show liveBelow p.objs (r * p.regionWords) < liveBelow p.objs
      ((r + 1) * p.regionWords) by omega)
  rw [Nat.succ_mul] at hw2
  have hplace : z.packed p.regionWords p.objs w
      = z.packed p.regionWords p.objs (n * p.regionWords) := by
    rw [Zone.packed, Zone.packed, hwcount, hsame]
  have hfeeds :=
    Zone.feeds_of_packed (D := D) p.regionWords_pos (show z.keep * p.regionWords ≤ w by omega) hw
      (by omega) (by omega)
  rwa [div_eq_of_bounds hw1 hw2] at hfeeds

/-- Regions without data feed none. -/
lemma not_feeds_of_dead (hx : z.keep ≤ x) (hnx : n ≤ x) (hxr : x < r)
    (hsame : liveBelow p.objs (r * p.regionWords) = liveBelow p.objs (n * p.regionWords)) :
    ¬z.Feeds p.regionWords p.objs x D := by
  intro hfeeds
  obtain ⟨w, hw1, hw2, hw, _⟩ := (Zone.feeds_iff p.regionWords_pos hx).1 hfeeds
  have hlow := liveBelow_mono p.objs (le_trans (Nat.mul_le_mul_right p.regionWords hnx) hw1)
  have hmul := Nat.mul_le_mul_right p.regionWords (show x + 1 ≤ r from hxr)
  rw [Nat.succ_mul] at hmul
  have hhigh := liveBelow_lt hw (show w < r * p.regionWords by omega)
  omega

/-- The next source region: nothing lies between word `c`, up to which the region is filled, and its
data. -/
lemma nextSource_stands (hp : p.Valid) (ht : p.Target done i z D)
    (hfills : K.Fills done D (z.packed p.regionWords p.objs c) n claimed h)
    (hboundary : Boundary p.objs c) (hD : D < n) (h1 : n * p.regionWords ≤ c)
    (h2 : c < n * p.regionWords + p.regionWords)
    (hlow : D * p.regionWords ≤ z.packed p.regionWords p.objs (n * p.regionWords))
    (hlt : z.packed p.regionWords p.objs c < z.fillEnd p.regionWords p.objs D)
    (hf : p.At f i D c (z.packed p.regionWords p.objs c)
      (z.fillEnd p.regionWords p.objs D - z.packed p.regionWords p.objs c)) :
    ∃ r f' a', h.nextSource (p.covered.addr z.top) (p.covered.addr (n * p.regionWords)) f
      = .ok (r, f') ∧ n ≤ a' / p.regionWords
      ∧ K.Stands done i z D a' r claimed f' h := by
  have hW := p.regionWords_pos
  have hkeepn := ht.keep_le.trans hD.le
  have hkeep := Nat.mul_le_mul_right p.regionWords hkeepn
  have hend : z.fillEnd p.regionWords p.objs D ≤ z.packed p.regionWords p.objs z.top :=
    min_le_left _ _
  have hend' : z.fillEnd p.regionWords p.objs D ≤ D * p.regionWords + p.regionWords :=
    min_le_right _ _
  have hctop := Zone.lt_top_of_packed_lt hlt
  have hmono := liveBelow_mono p.objs h1
  have hplace := z.packed_mono p.regionWords p.objs h1
  have hmore : liveBelow p.objs c < liveBelow p.objs z.top := by
    have hless : z.packed p.regionWords p.objs c < z.packed p.regionWords p.objs z.top := by omega
    rw [Zone.packed, Zone.packed] at hless
    omega
  obtain ⟨r, hr1, hr2, hdata, hsame, heq⟩ :=
    nextSource_eq (b := n * p.regionWords) hp hfills.serves.loaded ht.mem
    (by rw [upTo_mul hW]; exact hkeepn) (by omega) (by rw [upTo_mul hW]; omega) f
  rw [upTo_mul hW] at hr1 hsame
  rw [hf.source] at heq
  have hfeeds := feeds_of_data hkeepn hr1 hdata hsame hlow (by omega)
  have hfills' : K.Fills done D (z.packed p.regionWords p.objs c) r claimed h := by
    refine hfills.retake hp ht fun x hx _ _ hxfeeds =>
      ⟨fun hless => lt_of_lt_of_le hless hr1, fun hless => ?_⟩
    by_contra hge
    exact not_feeds_of_dead hx (not_lt.1 hge) hless hsame hxfeeds
  by_cases hgap : c < r * p.regionWords
  · have hpacked : z.packed p.regionWords p.objs (r * p.regionWords)
        = z.packed p.regionWords p.objs c := by
      have hmono' := liveBelow_mono p.objs hgap.le
      rw [Zone.packed, Zone.packed, show liveBelow p.objs (r * p.regionWords)
        = liveBelow p.objs c by omega]
    have hdiv : r * p.regionWords / p.regionWords = r := Nat.mul_div_cancel r hW
    have hreads : z.Reads p.regionWords p.objs D (r * p.regionWords)
        (r * p.regionWords / p.regionWords) :=
      .other (by rw [hdiv]; omega) (by rw [hdiv]; exact hfeeds)
    rw [hdiv] at hreads
    rw [if_pos (by simpa using hgap)] at heq
    refine ⟨r, _, r * p.regionWords, heq, by rw [hdiv]; omega, ?_⟩
    exact
      { fills := hpacked.symm ▸ hfills'
        boundary := hboundary.of_not_live hgap.le fun j hj1 hj2 =>
          Zone.dead_of_packed_eq (by omega) hpacked hj1 hj2
        low := by rw [hpacked]; omega
        lt := hpacked.symm ▸ hlt
        reads := hreads
        progress := hpacked.symm ▸ hf.withSource _ }
  · have hr : r = n := by
      have hless : r * p.regionWords < (n + 1) * p.regionWords := by
        rw [Nat.succ_mul]
        omega
      have := Nat.lt_of_mul_lt_mul_right hless
      omega
    subst hr
    have hdiv : c / p.regionWords = r := div_eq_of_bounds h1 h2
    have hreads : z.Reads p.regionWords p.objs D c (c / p.regionWords) :=
      .other (by rw [hdiv]; omega) (by rw [hdiv]; exact hfeeds)
    rw [hdiv] at hreads
    rw [if_neg (by simpa using hgap)] at heq
    exact ⟨r, _, c, heq, hdiv.ge, hfills', hboundary, by omega, hlt, hreads, hf⟩

/-- The fill ends with a word of an object that starts in the stretch that is read: the source
regions that are left are released, and the region is completed. -/
lemma fillEnds_leads (hp : p.Valid) (ht : p.Target done i z D) {plan : FillPlan}
    (hplan : plan.region = D)
    (hfills : K.Fills done D (z.fillEnd p.regionWords p.objs D) r claimed h)
    (hreads : z.Reads p.regionWords p.objs D a r) (hkeep : z.keep * p.regionWords ≤ a)
    (hlow : D * p.regionWords ≤ z.packed p.regionWords p.objs a) (ho : o ∈ p.objs)
    (hstart : o.start < (a / p.regionWords + 1) * p.regionWords) (hb : b ≤ o.past)
    (htop : b ≤ z.top) (hend : z.packed p.regionWords p.objs b = z.fillEnd p.regionWords p.objs D)
    {deferred copied : ℕ} (hdeferred : p.Deferred D deferred) :
    Leads K.may (do
      let claimed ← release (upTo p.regionWords (z.newTop p.regionWords p.objs)) r
          (p.covered.addr b) claimed
      finishRegion plan deferred
      pure (claimed, copied)) h fun out h' => K.Filled done D copied out h' := by
  have hhigh : z.packed p.regionWords p.objs b ≤ D * p.regionWords + p.regionWords :=
    hend ▸ min_le_right _ _
  rw [leads_bind]
  refine (release_leads hp ht hfills htop fun x hx hlt =>
    hreads.feeds_upTo p.regionWords_pos hkeep hlow ho hstart hb hhigh hx hlt).mono
      fun claimed' h₁ hfills₁ => ?_
  refine finishRegion_leads hp ht hplan hfills₁
    (fun x hx hlast _ hfeeds => lt_max_iff.2 (Or.inr ?_)) hdeferred
  exact (lt_upTo_iff p.regionWords_pos).2 (ht.lt_of_feeds hp hend.ge hx hlast hfeeds)

/-- The stretch that is read is used up: its region is released, and filling goes on with the next
source region. -/
lemma nextStretch_leads {μ' : Type} (next : ℕ → List ℕ → Filling → HeapAction μ μ')
    {Q : μ' → Heap μ → Prop} (hp : p.Valid) (ht : p.Target done i z D)
    (hfills : K.Fills done D (z.packed p.regionWords p.objs c) r claimed h)
    (hreads : z.Reads p.regionWords p.objs D a r)
    (hlow : D * p.regionWords ≤ z.packed p.regionWords p.objs a)
    (hstop : (a / p.regionWords + 1) * p.regionWords ≤ z.top) (hboundary : Boundary p.objs c)
    (h1 : (a / p.regionWords + 1) * p.regionWords ≤ c)
    (h2 : c < (a / p.regionWords + 1) * p.regionWords + p.regionWords)
    (hlt : z.packed p.regionWords p.objs c < z.fillEnd p.regionWords p.objs D)
    (hf : p.At f i D c (z.packed p.regionWords p.objs c)
      (z.fillEnd p.regionWords p.objs D - z.packed p.regionWords p.objs c))
    (hnext : ∀ {a' r' : ℕ} {claimed' : List ℕ} {f' : Filling} {h' : Heap μ},
      a / p.regionWords < a' / p.regionWords →
      K.Stands done i z D a' r' claimed' f' h' → Leads K.may (next r' claimed' f') h' Q) :
    Leads K.may (do
      let claimed ← release (upTo p.regionWords (z.newTop p.regionWords p.objs)) r
        (p.covered.addr ((a / p.regionWords + 1) * p.regionWords)) claimed
      let (r, f) ← check ((← get).nextSource (p.covered.addr z.top)
          (p.covered.addr ((a / p.regionWords + 1) * p.regionWords)) f)
      next r claimed f) h Q := by
  have hW := p.regionWords_pos
  obtain ⟨hDa, hra, hra', hDr⟩ := hreads.bounds
  obtain ⟨ha1, ha2⟩ := div_mul_bounds hW a
  have hmul : (a / p.regionWords + 1) * p.regionWords
      = a / p.regionWords * p.regionWords + p.regionWords := Nat.succ_mul ..
  have hmono :=
    z.packed_mono p.regionWords p.objs (show a ≤ (a / p.regionWords + 1) * p.regionWords by omega)
  rw [leads_bind]
  refine (release_leads hp ht hfills hstop fun x => hreads.feeds).mono fun claimed' h₂ hfills₂ => ?_
  rw [upTo_mul hW, Nat.max_eq_right hra'] at hfills₂
  obtain ⟨r', f'', a', heq, hle, hstands⟩ :=
    nextSource_stands hp ht hfills₂ hboundary (by omega) h1 h2 (by omega) hlt hf
  simp only [leads_bind, leads_get]
  rw [heq, leads_check_ok]
  exact hnext hle hstands

/-- A stretch ends where the region that it starts in ends. -/
lemma alignUp_stretch {t : RegionTable} (hloaded : p.Loaded t) (ha : a < p.covered.words) :
    t.alignUp (p.covered.addr a + bytesPerWord)
      = .ok (p.covered.addr ((a / p.regionWords + 1) * p.regionWords)) := by
  have hW := p.regionWords_pos
  have hup : upTo p.regionWords (a + 1) = a / p.regionWords + 1 := by
    rw [upTo, show a + 1 + (p.regionWords - 1) = a + p.regionWords by omega, Nat.add_div_right a hW]
  rw [show p.covered.addr a + bytesPerWord = p.covered.addr (a + 1) from
    Extent.addr_add p.covered a 1, ← hloaded.covered,
    hloaded.laid.alignUp_addr (by rw [hloaded.covered]; exact ha), hloaded.regionWords_eq, hup]

/-- The object that does not fit is copied as far as there is room, and the fill ends inside of
it. -/
lemma overflow_leads (hp : p.Valid) (ht : p.Target done i z D) {plan : FillPlan}
    (hplan : plan.region = D) (hfills : K.Fills done D (p.forward o.start) r claimed h)
    (hreads : z.Reads p.regionWords p.objs D a r) (hkeep : z.keep * p.regionWords ≤ a)
    (hlow : D * p.regionWords ≤ z.packed p.regionWords p.objs a) (ho : o ∈ p.objs)
    (ha : a ≤ o.start) (hstart : o.start < (a / p.regionWords + 1) * p.regionWords)
    (htop : o.start < z.top) (h1 : p.forward o.start < z.fillEnd p.regionWords p.objs D)
    (h2 : z.fillEnd p.regionWords p.objs D < p.forward o.start + o.words)
    (hf : p.At f i D o.start (p.forward o.start)
      (z.fillEnd p.regionWords p.objs D - p.forward o.start)) :
    Leads K.may (do
      let done ← copyWords f.remaining f
      let claimed ← release
          (upTo p.regionWords (z.newTop p.regionWords p.objs)) r done.source claimed
      finishRegion plan f.destination
      pure (claimed, done.copied)) h fun out h' =>
        K.Filled done D (p.arrivals (D * p.regionWords)
          (z.fillEnd p.regionWords p.objs D)) out h' := by
  have hkeepo := le_trans hkeep ha
  have hpast : o.past = o.start + o.words := rfl
  have hpastTop := ht.past_le_top hp ho hkeepo htop
  have hend : z.fillEnd p.regionWords p.objs D ≤ D * p.regionWords + p.regionWords :=
    min_le_right _ _
  have hforward := forward_eq_packed hp ht.mem hkeepo htop
  have hmono := z.packed_mono p.regionWords p.objs ha
  have hfull : p.forward o.start + (z.fillEnd p.regionWords p.objs D - p.forward o.start)
      = z.fillEnd p.regionWords p.objs D := by
    omega
  obtain ⟨g, hg⟩ := hfills.filled
  rw [leads_bind, hf.remaining]
  refine (copyInto_leads hp ht hg hf ho le_rfl
    (show o.start + (z.fillEnd p.regionWords p.objs D - p.forward o.start) ≤ o.past by omega)
      (by omega) rfl (by omega)
    (by omega)).mono fun f' h₁ => ?_
  rintro ⟨hg₁, htable, hf'⟩
  have hfilled := hg₁.part hp ho (le_refl o.start) (by omega) rfl (Or.inr (by omega))
  rw [hfull] at hfilled hf'
  have hplace :=
    hp.forward_add_of_mem (k := z.fillEnd p.regionWords p.objs D - p.forward o.start) ho
      (le_refl o.start) (by omega)
  rw [forward_eq_packed hp ht.mem (by omega) (by omega)] at hplace
  rw [hf'.source, ← hf'.copied, hf.destination]
  exact fillEnds_leads hp ht hplan (hfills.refilled (by rw [htable]; exact .refl _ _) hfilled)
    hreads hkeep hlow ho hstart
    (by omega) (by omega) (by omega) (ht.deferred_some hp ho hkeepo htop (by omega) h1 h2)

/-- Where objects end that start in a stretch and reach out of it, without the region being full. -/
lemma lt_nextStretch (hp : p.Valid) (ht : p.Target done i z D) (hkeep : z.keep * p.regionWords ≤ a)
    (hlow : D * p.regionWords ≤ z.packed p.regionWords p.objs a) (ho : o ∈ p.objs)
    (ha : a ≤ o.start) (hstart : o.start < stop) (htop : stop ≤ z.top)
    (hlt : z.packed p.regionWords p.objs o.past < z.fillEnd p.regionWords p.objs D) :
    o.past < stop + p.regionWords := by
  have hend : z.fillEnd p.regionWords p.objs D ≤ D * p.regionWords + p.regionWords :=
    min_le_right _ _
  have hlast := packed_past hp ht.mem ho (by omega) (show o.start < z.top by omega)
  have hforward :=
    forward_eq_packed hp ht.mem (show z.keep * p.regionWords ≤ o.start by omega)
      (show o.start < z.top by omega)
  have hmono := z.packed_mono p.regionWords p.objs ha
  have hwords : o.past = o.start + o.words := rfl
  omega

/-- The rest of a region is filled from its source regions, one after the other. -/
theorem fillFrom_leads (hp : p.Valid) (ht : p.Target done i z D) {tries : ℕ}
    (hstands : K.Stands done i z D a r claimed f h) (htries : z.last ≤ a / p.regionWords + tries) :
    Leads K.may (fillFrom ⟨D, upTo p.regionWords (z.newTop p.regionWords p.objs),
      p.covered.addr z.top⟩ tries r claimed f) h
      fun out h' => K.Filled done D
        (p.arrivals (D * p.regionWords) (z.fillEnd p.regionWords p.objs D)) out h' := by
  have hW := p.regionWords_pos
  have hz := hp.ordered z ht.mem
  have htopLast := hz.top_le_last
  have hlastWords := hz.last_le
  have hend : z.fillEnd p.regionWords p.objs D ≤ D * p.regionWords + p.regionWords :=
    min_le_right _ _
  induction tries generalizing a r claimed f h with
  | zero =>
    have htop := Zone.lt_top_of_packed_lt hstands.lt
    have hdiv := div_lt_of_lt_mul (lt_of_lt_of_le htop htopLast)
    omega
  | succ tries ih =>
    obtain ⟨hfills, hboundary, hlow, hlt, hreads, hf⟩ := hstands
    have hDa := hreads.bounds.1
    have hkeepD := Nat.mul_le_mul_right p.regionWords ht.keep_le
    have hatop := Zone.lt_top_of_packed_lt hlt
    have hnext := (div_mul_bounds hW a).2
    have hmul : (a / p.regionWords + 1) * p.regionWords
        = a / p.regionWords * p.regionWords + p.regionWords := Nat.succ_mul ..
    rw [fillFrom]
    simp only [leads_bind, leads_get]
    rw [hf.source, alignUp_stretch hfills.serves.loaded (by omega), leads_check_ok, Extent.min_addr]
    generalize hstop : min ((a / p.regionWords + 1) * p.regionWords) z.top = stop
    refine (placeUpTo_leads hp ht hboundary (show a ≤ stop by omega) (by omega)
      (show stop ≤ z.top by omega) hlow hlt hend
      hfills.filled hf).mono fun out h₁ => ?_
    rintro ⟨hrefilled, hplaced⟩
    cases hplaced with
    | stopped hstopped =>
      cases hstopped with
      | @full o f' mem le lt eq filled at_ =>
        have hpos := hp.separate.words_pos o mem
        have htop :=
          ht.past_le_top hp mem (show z.keep * p.regionWords ≤ o.start by omega) (by omega)
        have hlast := packed_past hp ht.mem mem (by omega) (by omega)
        dsimp only
        rw [at_.source, ← at_.copied]
        exact fillEnds_leads hp ht rfl (hfills.refilled hrefilled filled) hreads (by omega) hlow mem
          (by omega) le_rfl htop
          (hlast.trans eq) (ht.deferred_none hp mem (by omega) eq.ge (Or.inl eq))
      | @overflow o f' mem le lt low high filled at_ =>
        exact overflow_leads hp ht rfl (hfills.refilled hrefilled filled) hreads (by omega) hlow mem
          le (by omega) (by omega) low
          high at_
    | @onward status f' c hstatus hboundary' hreached hlt' hfilled' hf' =>
      have hctop := Zone.lt_top_of_packed_lt hlt'
      have hstop' : stop = (a / p.regionWords + 1) * p.regionWords := by
        rcases hreached with rfl | ⟨o, _, _, _, hpast, rfl⟩ <;> omega
      have hc1 : stop ≤ c := by
        rcases hreached with rfl | ⟨o, _, _, _, hpast, rfl⟩ <;> omega
      have hc2 : c < stop + p.regionWords := by
        rcases hreached with rfl | ⟨o, mem, le, lt, _, rfl⟩
        · omega
        · exact lt_nextStretch hp ht (by omega) hlow mem le lt (by omega) hlt'
      rw [hstop'] at hc1 hc2 ⊢
      have hgoes :=
        nextStretch_leads (fillFrom _ tries) hp ht (hfills.refilled hrefilled hfilled') hreads
          hlow (by omega)
        hboundary' hc1 hc2 hlt' hf' fun hless hstands' => ih hstands' (by omega)
      -- After either answer the next source region follows.
      rcases hstatus with rfl | rfl
      · exact hgoes
      · exact hgoes

end Heap

end MarkCompact
