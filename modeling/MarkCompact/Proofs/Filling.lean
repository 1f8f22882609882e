import Mathlib.Order.Interval.Finset.Nat
import MarkCompact.Proofs.Sources
import MarkCompact.Proofs.Upkeep

/-!
# Filling a region up to a word

While region `D` is filled, the words of it below some word `d` have received what belongs there,
and the objects whose new places lie whole in that part have been updated.  `K.FilledTo done D d h`
says so of the heap `h`, the regions in `done` being completed; objects are placed one after the
other as long as the region has room.

Main statements: `copyInto_leads` (part of an object is copied), `placeObject_leads` and
`placeUpTo_leads` (what starts in a stretch of a source region is placed).
-/

namespace MarkCompact

variable {p : Plan} {done : ℕ → Prop} {o o' : Span} {os : List Span} {z : Zone}
  {D a b c d i n s stop w x : ℕ}

/-- Where region `D` ends or, in the last one, the data. -/
def Zone.fillEnd (z : Zone) (W : ℕ) (objs : List Span) (D : ℕ) : ℕ :=
  min (z.newTop W objs) (D * W + W)

namespace Plan

/-- The words that have received what belongs there once the regions in `done` are completed. -/
def Settled (p : Plan) (done : ℕ → Prop) (x : ℕ) : Prop :=
  (∃ z ∈ p.zones, z.first * p.regionWords ≤ x ∧ x < z.keep * p.regionWords)
    ∨ done (x / p.regionWords)

/-- The words that have received what belongs there once, besides, region `D` is filled up to word
`d`. -/
def Reached (p : Plan) (done : ℕ → Prop) (D d x : ℕ) : Prop :=
  p.Settled done x ∨ (D * p.regionWords ≤ x ∧ x < d)

/-- The object moves, and its new place does not end in the region that it starts in. -/
def Split (p : Plan) (o : Span) : Prop :=
  (∃ z ∈ p.zones, z.Holds p.regionWords o ∧ z.keep * p.regionWords ≤ o.start)
    ∧ p.forward o.start / p.regionWords * p.regionWords + p.regionWords < p.forward
      o.start + o.words

/-- The objects that have been updated once region `D` is filled up to word `d`. -/
def UpdatedTo (p : Plan) (done : ℕ → Prop) (D d : ℕ) (o : Span) : Prop :=
  o ∈ p.objs ∧ (done (p.forward o.start / p.regionWords) ∧ ¬p.Split o
    ∨ D * p.regionWords ≤ p.forward o.start ∧ p.forward o.start + o.words ≤ d)

/-- A word that was elsewhere goes to word `y`. -/
def Arrives (p : Plan) (y : ℕ) : Prop :=
  ∃ w, Live p.objs w ∧ p.forward w = y ∧ w ≠ y

open Classical in
/-- The number of words from `a` on and below `b` to which a word from elsewhere goes. -/
noncomputable def arrivals (p : Plan) (a b : ℕ) : ℕ :=
  ((Finset.Ico a b).filter p.Arrives).card

/-- Region `D` of zone number `i` can be filled: the regions that its own data goes to are
completed. -/
structure Target (p : Plan) (done : ℕ → Prop) (i : ℕ) (z : Zone) (D : ℕ) : Prop where
  zone : p.zones[i]? = some z
  freed : z.Freed p.regionWords p.objs done D
  fresh : ¬done D

/-- The progress of filling region `D`: words from `s` on go to `d`, and `n` of them are lacking. -/
structure At (p : Plan) (f : Filling) (i D s d n : ℕ) : Prop where
  space : f.space = i
  source : f.source = p.covered.addr s
  destination : f.destination = p.covered.addr d
  remaining : f.remaining = n
  copied : f.copied = p.arrivals (D * p.regionWords) d

lemma At.withSource {f : Filling} (hf : p.At f i D s d n) (x : ℕ) :
    p.At { f with source := p.covered.addr x } i D x d n :=
  ⟨hf.space, rfl, hf.destination, hf.remaining, hf.copied⟩

lemma At.advance {f : Filling} (hf : p.At f i D s d n) {k copied : ℕ}
    (hcopied : copied = p.arrivals (D * p.regionWords) (d + k)) :
    p.At { f.advance k with copied } i D (s + k) (d + k) (n - k) where
  space := hf.space
  source := by rw [← Extent.addr_add, ← hf.source]; rfl
  destination := by rw [← Extent.addr_add, ← hf.destination]; rfl
  remaining := by rw [← hf.remaining]; rfl
  copied := hcopied

lemma arrivals_succ (h : a ≤ d) : p.arrivals a (d + 1) = p.arrivals a d + p.arrivals d (d + 1) := by
  classical
  rw [arrivals, arrivals, arrivals, ← Finset.card_union_of_disjoint, ← Finset.filter_union,
    Finset.Ico_union_Ico_eq_Ico h (by omega)]
  exact Finset.disjoint_filter_filter (Finset.Ico_disjoint_Ico_consecutive a d (d + 1))

lemma arrivals_self (p : Plan) (a : ℕ) : p.arrivals a a = 0 := by
  rw [arrivals, Finset.Ico_self, Finset.filter_empty, Finset.card_empty]

/-- Words that go to their places as one run arrive there, unless they stay. -/
lemma arrivals_add (hp : p.Valid) (ha : a ≤ d) (hlive : ∀ i, i < n → Live p.objs (s + i))
    (hforward : ∀ i, i < n → p.forward (s + i) = d + i) :
    p.arrivals a (d + n) = p.arrivals a d + if s = d then 0 else n := by
  classical
  induction n with
  | zero => rw [Nat.add_zero, ite_self, Nat.add_zero]
  | succ n ih =>
    have hone : p.arrivals (d + n) (d + n + 1) = if s = d then 0 else 1 := by
      have harrives : p.Arrives (d + n) ↔ s ≠ d := by
        constructor
        · rintro ⟨w, hw, heq, hne⟩ rfl
          exact hne (hp.forward_injective hw (hlive n (by omega))
            (by rw [heq, hforward n (by omega)]))
        · exact fun hne => ⟨s + n, hlive n (by omega), hforward n (by omega), by omega⟩
      rw [arrivals, Nat.Ico_succ_singleton, Finset.filter_singleton]
      by_cases hsame : s = d
      · rw [if_neg (by rw [harrives]; exact not_not.2 hsame), if_pos hsame, Finset.card_empty]
      · rw [if_pos (harrives.2 hsame), if_neg hsame, Finset.card_singleton]
    rw [← Nat.add_assoc, arrivals_succ (by omega), hone,
      ih (fun i hi => hlive i (by omega)) (fun i hi => hforward i (by omega))]
    split <;> omega

namespace Target

variable (ht : p.Target done i z D) (hp : p.Valid)
include ht

lemma mem : z ∈ p.zones :=
  List.mem_of_getElem? ht.zone

lemma keep_le : z.keep ≤ D :=
  ht.freed.1.1

include hp

lemma lt_last : D < z.last :=
  ht.freed.1.lt_last (hp.ordered z ht.mem)

/-- The words of region `D` lie in the zone, above its dense prefix. -/
lemma has (h1 : D * p.regionWords ≤ x) (h2 : x < D * p.regionWords + p.regionWords) :
    z.Has p.regionWords x ∧ z.keep * p.regionWords ≤ x := by
  have hkeep := Nat.mul_le_mul_right p.regionWords ht.keep_le
  have hfirst := Nat.mul_le_mul_right p.regionWords (hp.ordered z ht.mem).first_le_keep
  have hlast := Nat.mul_le_mul_right p.regionWords (show D + 1 ≤ z.last from ht.lt_last hp)
  rw [Nat.succ_mul] at hlast
  exact ⟨⟨by omega, by omega⟩, by omega⟩

/-- Region `D` has not been filled. -/
lemma not_settled (h1 : D * p.regionWords ≤ x) (h2 : x < D * p.regionWords + p.regionWords) :
    ¬p.Settled done x := by
  obtain ⟨hhas, hkeep⟩ := ht.has hp h1 h2
  rintro (⟨z', hz', g1, g2⟩ | hdone)
  · have hle := (hp.ordered z' hz').keep_le_top
    have hle' := (hp.ordered z' hz').top_le_last
    obtain rfl := hp.eq_of_has ht.mem hz' hhas ⟨g1, by omega⟩
    omega
  · rw [div_eq_of_bounds h1 h2] at hdone
    exact ht.fresh hdone

/-- The data of region `D` that goes to other regions has gone. -/
lemma settled_of_live (hw : Live p.objs w) (h1 : D * p.regionWords ≤ w)
    (h2 : w < D * p.regionWords + p.regionWords) :
    p.Settled done (p.forward w) ∨ D * p.regionWords ≤ p.forward w := by
  have hW := p.regionWords_pos
  obtain ⟨hhas, hkeep⟩ := ht.has hp h1 h2
  by_cases hlt : p.forward w < D * p.regionWords
  · left
    right
    rw [hp.forward_eq ht.mem hhas, Zone.forward, if_neg (not_lt.2 hkeep)] at hlt ⊢
    exact Zone.owed_eq_zero_iff.1 ht.freed.2 _ (div_lt_of_lt_mul hlt)
      ((Zone.feeds_iff hW ht.keep_le).2 ⟨w, h1, h2, hw, rfl⟩)
  · exact Or.inr (not_lt.1 hlt)

end Target

/-- Placing words of one object does not complete another one. -/
lemma updatedTo_of_ne (hp : p.Valid) (ho : o ∈ p.objs) (h1 : o.start ≤ s) (h2 : s + n ≤ o.past)
    (hforward : p.forward s = d) (hne : o' ≠ o) :
    p.UpdatedTo done D (d + n) o' ↔ p.UpdatedTo done D d o' := by
  refine and_congr_right fun ho' =>
    or_congr_right ⟨fun ⟨g1, g2⟩ => ⟨g1, ?_⟩, fun ⟨g1, g2⟩ => ⟨g1, by omega⟩⟩
  by_contra hlt
  -- The last word of the other object would be one of those that were placed.
  have hpos := hp.separate.words_pos o' ho'
  have hlast := hp.forward_add ho' (show o'.words - 1 < o'.words by omega)
  have hplaced :=
    hp.forward_add_of_mem (k := p.forward o'.start + (o'.words - 1) - d) ho h1 (by omega)
  have hcov : o.Covers (s + (p.forward o'.start + (o'.words - 1) - d)) := ⟨by omega, by omega⟩
  have hcov' : o'.Covers (o'.start + (o'.words - 1)) := ⟨by omega, by rw [Span.past]; omega⟩
  have heq := hp.forward_injective (live_of_mem ho' hcov') (live_of_mem ho hcov) (by omega)
  exact hne (hp.separate.eq_of_covers ho' ho hcov' (heq ▸ hcov))

lemma updatedTo_whole (ho : o ∈ p.objs) (hd : D * p.regionWords ≤ p.forward o.start) :
    p.UpdatedTo done D (p.forward o.start + o.words) o :=
  ⟨ho, Or.inr ⟨hd, le_refl _⟩⟩

/-- An object of which a part is placed that is not its end, or not its start, is not complete. -/
lemma updatedTo_part (hpart : p.forward o.start < D * p.regionWords
    ∨ d + n < p.forward o.start + o.words) :
    p.UpdatedTo done D (d + n) o ↔ p.UpdatedTo done D d o :=
  and_congr_right fun _ => or_congr_right ⟨fun ⟨g1, g2⟩ => by omega, fun ⟨g1, g2⟩ => ⟨g1, by omega⟩⟩

end Plan

/-- The heap `h` has come as far as `g` says: the words in `filled` have received what belongs
there, the objects in `updated` have been updated, and the holes that start in `swept` have become
fillers. -/
structure Upkeep.Reaches {μ : Type} [ObjectModel μ] (K : Upkeep μ p) (filled : ℕ → Prop)
    (updated : Span → Prop) (swept : ℕ → Prop) (g : Progress) (h : Heap μ) : Prop where
  holds : K.Holds g h
  filled_iff : ∀ x, g.filled x ↔ filled x
  updated_iff : ∀ o, o ∈ g.updated ↔ updated o
  noted : ∀ o ∈ g.updated, g.noted (p.forward o.start)
  noted_closed : ∀ y, g.closed y → g.noted y
  closed : ∀ o, p.Hole o → swept o.start → g.closed o.start
  holes : ∀ y, g.closed y → ∃ o, p.Hole o ∧ o.start = y

/-- The regions in `done` are completed and region `D` is filled up to word `d`. -/
def Upkeep.FilledTo {μ : Type} [ObjectModel μ] (K : Upkeep μ p) (done : ℕ → Prop) (D d : ℕ)
    (h : Heap μ) : Prop :=
  ∃ g, K.Reaches (p.Reached done D d) (p.UpdatedTo done D d) (fun y => done (y / p.regionWords)) g h

lemma Upkeep.FilledTo.serves {μ : Type} [ObjectModel μ] {K : Upkeep μ p} {h : Heap μ}
    (hfill : K.FilledTo done D d h) :
    p.Serves h := by
  obtain ⟨g, hg⟩ := hfill
  exact K.serves hg.holds

namespace Heap

open Plan

variable {μ : Type} [ObjectModel μ] {K : Upkeep μ p} {h : Heap μ} {f : Filling} {g : Progress}

/-- Part of an object is copied to its place in the region. -/
lemma copyInto_leads (hp : p.Valid) (ht : p.Target done i z D)
    {updated : Span → Prop} {swept : ℕ → Prop}
    (hg : K.Reaches (p.Reached done D d) updated swept g h) {m : ℕ} (hf : p.At f i D s d m)
    (ho : o ∈ p.objs) (h1 : o.start ≤ s) (h2 : s + n ≤ o.past) (hpos : 0 < n)
    (hforward : p.forward s = d) (hd : D * p.regionWords ≤ d)
    (hend : d + n ≤ D * p.regionWords + p.regionWords) :
    Leads K.may (copyWords n f) h fun f' h' =>
      K.Reaches (p.Reached done D (d + n)) updated swept
        { g with filled := p.Reached done D (d + n) } h'
        ∧ h'.table = h.table ∧ p.At f' i D (s + n) (d + n) (m - n) := by
  have hplace : ∀ i, i < n → p.forward (s + i) = d + i := fun i hi => by
    rw [hp.forward_add_of_mem ho h1 (by omega), hforward]
  have hlive : ∀ i, i < n → Live p.objs (s + i) := fun i hi => live_of_mem ho ⟨by omega, by omega⟩
  have hregion : ∀ i, i < n → (d + i) / p.regionWords = D :=
    fun i hi => div_eq_of_bounds (by omega) (by omega)
  have hplaced : d / p.regionWords = D := hregion 0 hpos
  have hempty : ∀ x, d ≤ x → x / p.regionWords = d / p.regionWords → ¬p.Reached done D d x := by
    rintro x hx heq (hsettled | hlt)
    · rw [hplaced] at heq
      have hbounds := Nat.lt_div_mul_add p.regionWords_pos (a := x)
      rw [heq] at hbounds
      exact ht.not_settled hp (by omega) (by omega) hsettled
    · omega
  have hsafe : ∀ w, Live p.objs w → d ≤ w → w < d + n → p.Reached done D d (p.forward w)
      ∨ (s ≤ w ∧ w < s + n) := by
    intro w hw g1 g2
    rcases ht.settled_of_live hp hw (by omega) (by omega) with hsettled | hge
    · exact Or.inl (Or.inl hsettled)
    · -- What stays in the region is already placed or among the words that are copied.
      have hle := hp.forward_le hw
      by_cases hlt : p.forward w < d
      · exact Or.inl (Or.inr ⟨hge, hlt⟩)
      · have heq :=
          hp.forward_injective hw (hlive (p.forward w - d) (by omega))
            (by rw [hplace _ (by omega)]; omega)
        exact Or.inr (by omega)
  have hreached : ∀ x, p.Reached done D (d + n) x ↔ p.Reached done D d x ∨ (d ≤ x ∧ x < d + n) := by
    intro x
    simp only [Reached]
    constructor
    · rintro (hsettled | ⟨g1, g2⟩)
      · exact Or.inl (Or.inl hsettled)
      · by_cases hx : x < d
        · exact Or.inl (Or.inr ⟨g1, hx⟩)
        · exact Or.inr ⟨not_lt.1 hx, g2⟩
    · rintro ((hsettled | ⟨g1, g2⟩) | ⟨g1, g2⟩)
      · exact Or.inl hsettled
      · exact Or.inr ⟨g1, by omega⟩
      · exact Or.inr ⟨by omega, g2⟩
  refine (K.copyWords hg.holds hf.source hf.destination hpos hlive hplace
    (fun i hi => (hregion i hi).trans hplaced.symm)
    (fun x hx heq => (hg.filled_iff _).not.2 (hempty x hx heq))
    (fun w hw g1 g2 => (hsafe w hw g1 g2).imp_left (hg.filled_iff _).2)
    (fun x => (hreached x).trans (or_congr_left (hg.filled_iff x).symm))).mono fun f' h' => ?_
  rintro ⟨hholds, htable, rfl⟩
  refine ⟨{ hg with holds := hholds, filled_iff := fun _ => .rfl }, htable, hf.advance ?_⟩
  rw [arrivals_add hp hd hlive hplace, hf.copied]
  split <;> rfl

/-! ## Placing objects -/

/-- How placing the object `o` went, for which `n` words were left from word `d` on. -/
inductive ObjectPlaced (K : Upkeep μ p) (done : ℕ → Prop) (i D d n : ℕ) (o : Span) (h' : Heap μ) :
    WalkStatus × Filling → Prop
  | overflow {f : Filling} (lt : n < o.words) (filled : K.FilledTo done D d h')
      (at_ : p.At f i D o.start d n) :
      ObjectPlaced K done i D d n o h' (.wouldOverflow, f)
  | full {f : Filling} (eq : o.words = n) (filled : K.FilledTo done D (d + n) h')
      (at_ : p.At f i D o.past (d + n) 0) :
      ObjectPlaced K done i D d n o h' (.full, f)
  | incomplete {f : Filling} (lt : o.words < n) (filled : K.FilledTo done D (d + o.words) h')
      (at_ : p.At f i D o.past (d + o.words) (n - o.words)) :
      ObjectPlaced K done i D d n o h' (.incomplete, f)

/-- An object that has not been placed has not been updated. -/
lemma not_updated_of_reaches {filled swept : ℕ → Prop} {g : Progress}
    (hg : K.Reaches filled (p.UpdatedTo done D (p.forward o.start)) swept g h)
    (ht : p.Target done i z D) (hpos : 0 < o.words) (hlow : D * p.regionWords ≤ p.forward o.start)
    (hhigh : p.forward o.start < D * p.regionWords + p.regionWords) :
    o ∉ g.updated := by
  rw [hg.updated_iff]
  rintro ⟨_, ⟨hdone, _⟩ | ⟨_, hle⟩⟩
  · rw [div_eq_of_bounds hlow hhigh] at hdone
    exact ht.fresh hdone
  · omega

/-- An object for which there is room is copied and updated. -/
lemma placeWhole_leads (hp : p.Valid) (ht : p.Target done i z D) {g : Progress}
    (hg : K.Reaches (p.Reached done D (p.forward o.start)) (p.UpdatedTo done D (p.forward o.start))
      (fun y => done (y / p.regionWords)) g h)
    (hf : p.At f i D o.start (p.forward o.start) n) (ho : o ∈ p.objs)
    (hd : D * p.regionWords ≤ p.forward o.start)
    (hend : p.forward o.start + n ≤ D * p.regionWords + p.regionWords) (hroom : o.words ≤ n) :
    Leads K.may (do
      onSpace f.space (·.recordStart f.destination)
      let moved ← copyWords o.words f
      updateContents f.destination
      pure (if moved.remaining = 0 then WalkStatus.full else .incomplete, moved)) h fun out h' =>
      RegionTable.Refilled p.objs h.table h'.table ∧ ObjectPlaced K done i D
        (p.forward o.start) n o h' out := by
  have hpos := hp.separate.words_pos o ho
  have hhas := (ht.has hp hd (by omega)).1
  have hnot := not_updated_of_reaches hg ht hpos hd (by omega)
  have hrecord := K.recordStart hg.holds ht.zone hhas (Or.inl ⟨o, ho, rfl⟩)
  rw [← hf.space, ← hf.destination] at hrecord
  rw [leads_bind]
  refine hrecord.mono fun _ h₁ => ?_
  rintro ⟨hholds₁, htable₁⟩
  have hg₁ : K.Reaches (p.Reached done D (p.forward o.start))
      (p.UpdatedTo done D (p.forward o.start))
      (fun y => done (y / p.regionWords)) { g with
        noted := fun y => g.noted y ∨ y = p.forward o.start } h₁ :=
    { hg with
      holds := hholds₁
      noted := fun o ho => Or.inl (hg.noted o ho)
      noted_closed := fun y hy => Or.inl (hg.noted_closed y hy) }
  rw [leads_bind]
  refine (copyInto_leads hp ht hg₁ hf ho (le_refl _) (le_refl o.past) hpos rfl hd (by omega)).mono
    fun moved h₂ => ?_
  rintro ⟨hg₂, htable₂, hmoved⟩
  have harrived : ∀ k, k < o.words →
      p.location (p.Reached done D (p.forward o.start + o.words)) (o.start + k)
        = p.forward o.start + k := by
    intro k hk
    have hplace := hp.forward_add ho hk
    rw [location_of_filled, hplace]
    exact Or.inr (by omega)
  rw [leads_bind, hf.destination]
  refine (K.updateObject hg₂.holds ho hnot harrived).mono fun _ h₃ => ?_
  rintro ⟨hholds₃, hrefilled⟩
  rw [leads_pure]
  have hfinal : K.FilledTo done D (p.forward o.start + o.words) h₃ := by
    refine ⟨_, { hg₂ with holds := hholds₃, updated_iff := fun o' => ?_, noted := ?_ }⟩
    · show o' ∈ o :: g.updated ↔ _
      rw [List.mem_cons, hg.updated_iff]
      by_cases heq : o' = o
      · subst heq
        exact iff_of_true (Or.inl rfl) (updatedTo_whole ho hd)
      · rw [updatedTo_of_ne hp ho (le_refl _) (le_refl o.past) rfl heq]
        exact or_iff_right heq
    · exact List.forall_mem_cons.2 ⟨Or.inr rfl, hg₂.noted⟩
  rw [htable₂, htable₁] at hrefilled
  refine ⟨hrefilled, ?_⟩
  rw [hmoved.remaining]
  by_cases hfull : n - o.words = 0
  · obtain rfl : o.words = n := by omega
    rw [hfull] at hmoved
    rw [if_pos hfull]
    exact .full rfl hfinal hmoved
  · rw [if_neg hfull]
    exact .incomplete (by omega) hfinal hmoved

/-- An object that fits is placed and updated. -/
theorem placeObject_leads (hp : p.Valid) (ht : p.Target done i z D) (hfill : K.FilledTo done D d h)
    (hf : p.At f i D s d n) (ho : o ∈ p.objs) (hforward : p.forward o.start = d)
    (hd : D * p.regionWords ≤ d) (hend : d + n ≤ D * p.regionWords + p.regionWords) :
    Leads K.may (placeObject (o.run p.covered) f) h fun out h' =>
      RegionTable.Refilled p.objs h.table h'.table
      ∧ ObjectPlaced K done i D d n o h' out := by
  subst hforward
  obtain ⟨g, hg⟩ := hfill
  have hlive : Live p.objs o.start :=
    live_of_mem ho (Span.covers_start (hp.separate.words_pos o ho))
  have hf₁ := hf.withSource o.start
  rw [placeObject, leads_bind]
  refine (forward_runs hp (K.serves hg.holds) hlive).leads.mono fun target h₁ => ?_
  rintro ⟨rfl, t, rfl, hrefilled⟩
  have hserves := K.serves hg.holds
  have hg₁ : K.Reaches (p.Reached done D (p.forward o.start))
      (p.UpdatedTo done D (p.forward o.start))
      (fun y => done (y / p.regionWords)) g { h with table := t } :=
    { hg with
      holds :=
        K.withTable hg.holds (hserves.advance hrefilled.advances rfl rfl rfl hserves.spaces) }
  rw [if_neg (not_not.2 hf.destination.symm)]
  show Leads K.may (if f.remaining < o.words then pure
    (WalkStatus.wouldOverflow, { f with source := p.covered.addr o.start })
    else do
      onSpace f.space (·.recordStart f.destination)
      let moved ← copyWords o.words { f with source := p.covered.addr o.start }
      updateContents f.destination
      pure (if moved.remaining = 0 then WalkStatus.full else .incomplete, moved)) _ _
  by_cases hover : f.remaining < o.words
  · rw [if_pos hover, leads_pure]
    rw [hf.remaining] at hover
    exact ⟨hrefilled, .overflow hover ⟨g, hg₁⟩ hf₁⟩
  · rw [if_neg hover]
    rw [hf.remaining, not_lt] at hover
    refine (placeWhole_leads hp ht hg₁ hf₁ ho hd hend hover).mono fun out h' => ?_
    rintro ⟨hrefilled', hplaced⟩
    exact ⟨hrefilled.trans hrefilled', hplaced⟩

/-! ## Placing what starts in a stretch -/

/-- Placing objects that start from `a` on and before `b` has come to an end of the region, at word
`E`. -/
inductive Stopped (K : Upkeep μ p) (done : ℕ → Prop) (i : ℕ) (z : Zone) (D E a b : ℕ)
    (h' : Heap μ) : WalkStatus × Filling → Prop
  | full {o : Span} {f : Filling} (mem : o ∈ p.objs) (le : a ≤ o.start) (lt : o.start < b)
      (eq : p.forward o.start + o.words = E) (filled : K.FilledTo done D E h')
      (at_ : p.At f i D o.past E 0) :
      Stopped K done i z D E a b h' (.full, f)
  | overflow {o : Span} {f : Filling} (mem : o ∈ p.objs) (le : a ≤ o.start) (lt : o.start < b)
      (low : p.forward o.start < E) (high : E < p.forward o.start + o.words)
      (filled : K.FilledTo done D (p.forward o.start) h')
      (at_ : p.At f i D o.start (p.forward o.start) (E - p.forward o.start)) :
      Stopped K done i z D E a b h' (.wouldOverflow, f)

variable {E : ℕ}

lemma Stopped.mono {h' : Heap μ} {out : WalkStatus × Filling}
    (hs : Stopped K done i z D E a b h' out) {a' b' : ℕ} (ha : a' ≤ a) (hb : b ≤ b') :
    Stopped K done i z D E a' b' h' out := by
  cases hs with
  | full mem le lt eq filled at_ => exact .full mem (by omega) (by omega) eq filled at_
  | overflow mem le lt low high filled at_ =>
    exact .overflow mem (by omega) (by omega) low high filled at_

/-- Live words of the packed part of a zone go where they are packed. -/
lemma forward_eq_packed (hp : p.Valid) (hz : z ∈ p.zones) (hkeep : z.keep * p.regionWords ≤ x)
    (htop : x < z.top) :
    p.forward x = z.packed p.regionWords p.objs x := by
  have hfirst := Nat.mul_le_mul_right p.regionWords (hp.ordered z hz).first_le_keep
  rw [hp.forward_eq hz ((hp.ordered z hz).has_of_le (by omega) htop), Zone.forward,
    if_neg (not_lt.2 hkeep)]

lemma packed_past (hp : p.Valid) (hz : z ∈ p.zones) (ho : o ∈ p.objs)
    (hkeep : z.keep * p.regionWords ≤ o.start) (htop : o.start < z.top) :
    z.packed p.regionWords p.objs o.past = p.forward o.start + o.words := by
  have hle : o.start ≤ o.past := Nat.le_add_right ..
  rw [forward_eq_packed hp hz hkeep htop, z.packed_add hkeep hle,
    liveBelow_covers ho hle (le_refl _), Span.past]
  omega

variable (hp : p.Valid) (ht : p.Target done i z D)
include hp ht

/-- Objects are placed one after the other until the region is full or one does not fit. -/
theorem placeRuns_leads (hchain : Chain p.objs a os c) (hkeep : z.keep * p.regionWords ≤ a)
    (htop : c ≤ z.top) (hd : D * p.regionWords ≤ z.packed p.regionWords p.objs a)
    (hlt : z.packed p.regionWords p.objs a < E) (hE : E ≤ D * p.regionWords + p.regionWords)
    (hfill : K.FilledTo done D (z.packed p.regionWords p.objs a) h)
    (hf : p.At f i D a (z.packed p.regionWords p.objs a) (E - z.packed p.regionWords p.objs a))
    (whole : WalkOutcome) :
    Leads K.may (visitRuns (m := StateT Filling (HeapAction μ)) (refuseComplete placeObject) whole
        (os.map (Span.run · p.covered)) f) h fun out h' =>
      RegionTable.Refilled p.objs h.table h'.table
      ∧ ((out.1.source = none ∧ Stopped K done i z D E a c h' (out.1.status, out.2))
        ∨ out.1 = whole ∧ z.packed p.regionWords p.objs c < E
          ∧ K.FilledTo done D (z.packed p.regionWords p.objs c) h'
          ∧ p.At out.2 i D c (z.packed p.regionWords p.objs c)
            (E - z.packed p.regionWords p.objs c)) := by
  induction hchain generalizing h f with
  | nil a => exact leads_pure.2 ⟨.refl _ _, Or.inr ⟨rfl, hlt, hfill, hf⟩⟩
  | @cons a c o rest mem start_le dead next ih =>
    have hpos := hp.separate.words_pos o mem
    have hrest := next.le hp.separate
    have hpast : o.past = o.start + o.words := rfl
    have hkeep' : z.keep * p.regionWords ≤ o.start := by omega
    have hsame : z.packed p.regionWords p.objs o.start = z.packed p.regionWords p.objs a :=
      z.packed_of_dead start_le dead
    have hforward : p.forward o.start = z.packed p.regionWords p.objs a := by
      rw [forward_eq_packed hp ht.mem hkeep' (by omega), hsame]
    have hend := packed_past hp ht.mem mem hkeep' (by omega)
    rw [List.map_cons, visitRuns_refuse_cons, leads_bind]
    refine (placeObject_leads hp ht hfill hf mem hforward hd (by omega)).mono fun out h₁ => ?_
    rintro ⟨hrefilled, hplaced⟩
    rw [← hforward] at hplaced hlt hd
    cases hplaced with
    | overflow lt filled at_ =>
      exact ⟨hrefilled, Or.inl ⟨rfl, .overflow mem start_le (by omega) hlt (by omega) filled at_⟩⟩
    | full eq filled at_ =>
      rw [show p.forward o.start + (E - p.forward o.start) = E by omega] at filled at_
      exact ⟨hrefilled, Or.inl ⟨rfl, .full mem start_le (by omega) (by omega) filled at_⟩⟩
    | incomplete lt filled at_ =>
      rw [← hend] at filled at_
      rw [show E - p.forward o.start - o.words = E - z.packed p.regionWords p.objs o.past by omega]
        at at_
      refine (ih (by omega) htop (by omega) (by omega) filled at_).mono fun out h₂ => ?_
      rintro ⟨hrefilled', hresult⟩
      refine ⟨hrefilled.trans hrefilled', ?_⟩
      rcases hresult with ⟨hnone, hstopped⟩ | hwhole
      · exact Or.inl ⟨hnone, hstopped.mono (by omega) (le_refl _)⟩
      · exact Or.inr hwhole

/-- How placing everything that starts from `a` on and before `b` went. -/
inductive StretchPlaced (K : Upkeep μ p) (done : ℕ → Prop) (i : ℕ) (z : Zone) (D E a b : ℕ)
    (h' : Heap μ) : WalkStatus × Filling → Prop
  | stopped {out : WalkStatus × Filling} (h : Stopped K done i z D E a b h' out) :
      StretchPlaced K done i z D E a b h' out
  | onward {status : WalkStatus} {f : Filling} {c : ℕ}
      (status_eq : status = .complete ∨ status = .incomplete) (boundary : Boundary p.objs c)
      (reached : c = b ∨ ∃ o ∈ p.objs, a ≤ o.start ∧ o.start < b ∧ b < o.past ∧ c = o.past)
      (lt : z.packed p.regionWords p.objs c < E)
      (filled : K.FilledTo done D (z.packed p.regionWords p.objs c) h')
      (at_ : p.At f i D c (z.packed p.regionWords p.objs c) (E - z.packed p.regionWords p.objs c)) :
      StretchPlaced K done i z D E a b h' (status, f)

/-- An object that reaches out of the stretch is placed if it fits. -/
lemma placeStraddler_leads (ho : o ∈ p.objs) (ha : a ≤ o.start) (hstart : o.start < stop)
    (hpast : stop < o.past) (hkeep : z.keep * p.regionWords ≤ o.start) (htop : o.past ≤ z.top)
    (hd : D * p.regionWords ≤ p.forward o.start) (hlt : p.forward o.start < E)
    (hE : E ≤ D * p.regionWords + p.regionWords) (hfill : K.FilledTo done D (p.forward o.start) h)
    (hf : p.At f i D o.start (p.forward o.start) (E - p.forward o.start)) :
    Leads K.may (placeStraddler (p.covered.addr z.top) (p.covered.addr stop) f) h fun out h' =>
      RegionTable.Refilled p.objs h.table h'.table
        ∧ StretchPlaced K done i z D E a stop h' out := by
  have hcov : o.Covers o.start := Span.covers_start (hp.separate.words_pos o ho)
  have hwords : o.past = o.start + o.words := rfl
  have hend := packed_past hp ht.mem ho hkeep (by omega)
  have htopWords := le_trans (hp.ordered z ht.mem).top_le_last (hp.ordered z ht.mem).last_le
  have hserves := hfill.serves
  have hlimit : min (p.covered.addr o.start + bytesPerWord * f.remaining) (p.covered.addr z.top)
      = p.covered.addr (min (o.start + (E - p.forward o.start)) z.top) := by
    rw [Extent.addr_add, hf.remaining, Extent.min_addr]
  have hlast :=
    hserves.consistent.marks.firstEnd_eq
      (b := min (o.start + (E - p.forward o.start)) z.top) ho hcov
    (by omega) (by rw [hserves.bitmap_covered]; omega)
  rw [hserves.bitmap_covered] at hlast
  rw [placeStraddler, hf.source, if_neg (by simpa using hstart)]
  simp only [leads_bind, leads_get]
  rw [hlimit, hlast, leads_check_ok]
  by_cases hfits : o.words ≤ E - p.forward o.start
  · have hmin : min (o.past - 1) (min (o.start + (E - p.forward o.start)) z.top) = o.past - 1 := by
      omega
    have hdelta : Word.delta (p.covered.addr (o.past - 1)) (p.covered.addr o.start)
        = .ok (o.words - 1) :=
      Extent.delta_addr_eq_ok_iff.2 ⟨by omega, by omega⟩
    rw [hmin, if_pos (by simp only [Extent.addr_lt_addr]; omega), leads_bind, hdelta,
      leads_check_ok, Nat.sub_add_cancel (by omega), leads_bind]
    refine (placeObject_leads hp ht hfill hf ho rfl hd (by omega)).mono fun out h₁ => ?_
    rintro ⟨hrefilled, hplaced⟩
    cases hplaced with
    | overflow lt filled at_ => omega
    | full eq filled at_ =>
      rw [show p.forward o.start + (E - p.forward o.start) = E by omega] at filled at_
      rw [if_neg (by simp)]
      exact leads_pure.2 ⟨hrefilled, .stopped (.full ho ha hstart (by omega) filled at_)⟩
    | incomplete lt filled at_ =>
      rw [← hend] at filled at_
      rw [show E - p.forward o.start - o.words = E - z.packed p.regionWords p.objs o.past by omega]
        at at_
      rw [if_neg (by simp)]
      exact leads_pure.2 ⟨hrefilled, .onward (Or.inr rfl) (hp.separate.boundary_past ho)
        (Or.inr ⟨o, ho, ha, hstart, hpast, rfl⟩) (by omega) filled at_⟩
  · rw [if_neg (by simp only [Extent.addr_lt_addr]; omega),
      if_neg (by simp only [Extent.addr_le_addr]; omega)]
    exact leads_pure.2 ⟨.refl _ _, .stopped (.overflow ho ha hstart hlt (by omega) hfill hf)⟩

/-- Everything that starts from the boundary `a` on and before `stop` is placed, as far as there is
room. -/
theorem placeUpTo_leads (ha : Boundary p.objs a) (hstop : a ≤ stop)
    (hkeep : z.keep * p.regionWords ≤ a) (htop : stop ≤ z.top)
    (hd : D * p.regionWords ≤ z.packed p.regionWords p.objs a)
    (hlt : z.packed p.regionWords p.objs a < E) (hE : E ≤ D * p.regionWords + p.regionWords)
    (hfill : K.FilledTo done D (z.packed p.regionWords p.objs a) h)
    (hf : p.At f i D a (z.packed p.regionWords p.objs a) (E - z.packed p.regionWords p.objs a)) :
    Leads K.may (placeUpTo (p.covered.addr z.top) (p.covered.addr stop) f) h fun out h' =>
      RegionTable.Refilled p.objs h.table h'.table
        ∧ StretchPlaced K done i z D E a stop h' out := by
  have htopWords := le_trans (hp.ordered z ht.mem).top_le_last (hp.ordered z ht.mem).last_le
  have hserves := hfill.serves
  obtain ⟨os, c, straddler, hwalk, hchain, hc, hwalkEnd⟩ :=
    hserves.consistent.marks.objectsIn_eq ha hstop
    (by rw [hserves.bitmap_covered]; omega)
  rw [hserves.bitmap_covered, ← hf.source] at hwalk
  rw [placeUpTo]
  simp only [leads_bind, leads_get]
  rw [MarkBitmap.iterate, hwalk, ok_bind]
  refine leads_check_ok.2 ?_
  refine (placeRuns_leads hp ht hchain hkeep (by omega) hd hlt hE hfill hf _).mono fun out h₁ => ?_
  rintro ⟨hrefilled, ⟨hnone, hstopped⟩ | ⟨houtcome, hlt', hfill', hf'⟩⟩
  · rw [hnone, Option.getD_none]
    have hstopped := hstopped.mono (le_refl a) hc
    obtain ⟨⟨status, source⟩, f'⟩ := out
    cases hstopped with
    | full mem le lt eq filled at_ =>
      exact leads_pure.2 ⟨hrefilled, .stopped (.full mem le lt eq filled at_)⟩
    | overflow mem le lt low high filled at_ =>
      exact leads_pure.2 ⟨hrefilled, .stopped (.overflow mem le lt low high filled at_)⟩
  have hca := hchain.le hp.separate
  have hmono := z.packed_mono p.regionWords p.objs hca
  rw [houtcome]
  cases hwalkEnd with
  | complete dead boundary =>
    -- No object is left before `stop`.
    have hround := h.bitmap.roundToWord_addr stop
    have hsame : z.packed p.regionWords p.objs stop = z.packed p.regionWords p.objs c :=
      z.packed_of_dead hc dead
    rw [hserves.bitmap_covered] at hround
    rw [hround, Walk.outcome, Option.getD_some, if_neg (by simp), leads_pure]
    rw [← hsame] at hlt' hfill' hf'
    exact ⟨hrefilled, .onward (Or.inl rfl) boundary (Or.inl rfl) hlt' hfill' (hf'.withSource stop)⟩
  | @straddler o mem le_start dead start_lt lt_past =>
    have hsame : z.packed p.regionWords p.objs o.start = z.packed p.regionWords p.objs c :=
      z.packed_of_dead le_start dead
    have hforward := forward_eq_packed hp ht.mem (show z.keep * p.regionWords ≤ o.start by omega)
      (show o.start < z.top by omega)
    have hfirst := Nat.mul_le_mul_right p.regionWords (hp.ordered z ht.mem).first_le_keep
    have hholds := hp.has_of_mem ht.mem mem (Span.covers_start (hp.separate.words_pos o mem))
      ((hp.ordered z ht.mem).has_of_le (by omega) (by omega))
    rw [Walk.outcome, if_pos rfl, hserves.bitmap_covered, Option.getD_some]
    rw [← hsame, ← hforward] at hlt' hfill' hf'
    refine (placeStraddler_leads hp ht mem (show a ≤ o.start by omega) start_lt lt_past (by omega)
      hholds.2 (by omega) hlt' hE hfill' (hf'.withSource o.start)).mono fun out h₂ => ?_
    rintro ⟨hrefilled', hplaced⟩
    exact ⟨hrefilled.trans hrefilled', hplaced⟩

end Heap

end MarkCompact
