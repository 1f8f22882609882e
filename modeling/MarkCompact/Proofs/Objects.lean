import Mathlib.Algebra.GroupWithZero.Nat
import Mathlib.Data.List.Pairwise
import Mathlib.Data.Nat.Count

/-!
# Disjoint objects and the live words below a word

The collector's plan is arithmetic on a set of disjoint objects.  Words are numbered from the start
of the covered range; a `Span` is an object, the words from its first one up to `past`.

* `Live objs w`: word `w` belongs to one of the objects.
* `liveBelow objs n`: the number of live words below `n`.  Every plan is stated with it: the data of
  a region is a difference of two of its values, and a forwarding address is a constant plus one
  value.
* `Tiling a tiles c`: the spans cover every word from `a` up to `c`.
* `Boundary objs a`: no object reaches across the start of word `a`; `reach objs a` is the end of
  the one that does, or `a`.
-/

namespace MarkCompact

/-- `words` consecutive words from word `start` on. -/
structure Span where
  start : ℕ
  words : ℕ
  deriving DecidableEq, Repr

namespace Span

/-- The first word past the span. -/
def past (o : Span) : ℕ :=
  o.start + o.words

/-- Word `w` belongs to the span. -/
def Covers (o : Span) (w : ℕ) : Prop :=
  o.start ≤ w ∧ w < o.past

instance (o : Span) (w : ℕ) : Decidable (o.Covers w) :=
  inferInstanceAs (Decidable (_ ∧ _))

/-- The spans have no word in common. -/
def Apart (o o' : Span) : Prop :=
  o.past ≤ o'.start ∨ o'.past ≤ o.start

lemma Apart.symm {o o' : Span} (h : o.Apart o') : o'.Apart o :=
  Or.symm h

/-- The span has words on both sides of the start of word `a`. -/
def Crosses (o : Span) (a : ℕ) : Prop :=
  o.start < a ∧ a < o.past

instance (o : Span) (a : ℕ) : Decidable (o.Crosses a) :=
  inferInstanceAs (Decidable (_ ∧ _))

end Span

/-- The objects are not empty and have no word in common. -/
structure Separate (objs : List Span) : Prop where
  words_pos : ∀ o ∈ objs, 0 < o.words
  pairwise : objs.Pairwise Span.Apart

/-- Word `w` belongs to one of the objects. -/
def Live (objs : List Span) (w : ℕ) : Prop :=
  ∃ o ∈ objs, o.Covers w

instance (objs : List Span) : DecidablePred (Live objs) :=
  fun _ => inferInstanceAs (Decidable (∃ o ∈ objs, _))

/-- One of the objects starts at word `i`. -/
def Starts (objs : List Span) (i : ℕ) : Prop :=
  ∃ o ∈ objs, o.start = i

/-- No object reaches across the start of word `a`. -/
def Boundary (objs : List Span) (a : ℕ) : Prop :=
  ∀ o ∈ objs, ¬o.Crosses a

/-- The end of the object that reaches across the start of word `a`, or `a` if there is none. -/
def reach (objs : List Span) (a : ℕ) : ℕ :=
  match objs.find? (fun o => o.Crosses a) with
  | some o => o.past
  | none => a

/-- The number of live words below `n`. -/
def liveBelow (objs : List Span) (n : ℕ) : ℕ :=
  Nat.count (Live objs) n

variable {objs : List Span} {o o' : Span} {a b w x y : ℕ}

/-! ## Disjoint objects -/

instance : Std.Symm Span.Apart := ⟨fun _ _ => Span.Apart.symm⟩

namespace Separate

lemma eq_or_apart (h : Separate objs) (ho : o ∈ objs) (ho' : o' ∈ objs) : o = o' ∨ o.Apart o' := by
  by_cases heq : o = o'
  · exact Or.inl heq
  · exact Or.inr (h.pairwise.forall ho ho' heq)

lemma start_lt_past (h : Separate objs) (ho : o ∈ objs) : o.start < o.past := by
  have := h.words_pos o ho
  simp only [Span.past]
  omega

/-- Two objects that share a word are the same. -/
lemma eq_of_covers (h : Separate objs) (ho : o ∈ objs) (ho' : o' ∈ objs) (hw : o.Covers w)
    (hw' : o'.Covers w) : o = o' := by
  rcases h.eq_or_apart ho ho' with heq | hapart | hapart
  · exact heq
  · exact absurd (lt_of_lt_of_le hw.2 hapart) (not_lt.2 hw'.1)
  · exact absurd (lt_of_lt_of_le hw'.2 hapart) (not_lt.2 hw.1)

lemma eq_of_start (h : Separate objs) (ho : o ∈ objs) (ho' : o' ∈ objs) (heq : o.start = o'.start) :
    o = o' :=
  h.eq_of_covers ho ho' ⟨le_refl _, h.start_lt_past ho⟩ ⟨heq ▸ le_refl _, heq ▸ h.start_lt_past ho'⟩

lemma tail (h : Separate (o :: objs)) : Separate objs where
  words_pos o' ho' := h.words_pos o' (List.mem_cons_of_mem _ ho')
  pairwise := h.pairwise.tail

lemma apart_head (h : Separate (o :: objs)) (ho' : o' ∈ objs) : o.Apart o' :=
  List.rel_of_pairwise_cons h.pairwise ho'

lemma head_notMem (h : Separate (o :: objs)) : o ∉ objs := by
  intro ho
  have hpos := h.start_lt_past (List.mem_cons_self ..)
  rcases h.apart_head ho with hap | hap <;> omega

lemma cons (h : Separate objs) (hpos : 0 < o.words) (hapart : ∀ o' ∈ objs, o.Apart o') :
    Separate (o :: objs) where
  words_pos o' ho' := by
    rcases List.mem_cons.1 ho' with rfl | hin
    · exact hpos
    · exact h.words_pos o' hin
  pairwise := List.pairwise_cons.2 ⟨hapart, h.pairwise⟩

lemma nodup (h : Separate objs) : objs.Nodup :=
  h.pairwise.imp_of_mem fun {o o'} ho _ hapart heq => by
    subst heq
    have hpos := h.words_pos o ho
    rcases hapart with hle | hle <;> simp only [Span.past] at hle <;> omega

/-- There are at most as many objects as words. -/
lemma length_le (h : Separate objs) {n : ℕ} (hpast : ∀ o ∈ objs, o.past ≤ n) : objs.length ≤ n := by
  have hstarts : (objs.map Span.start).Nodup :=
    (List.nodup_map_iff_inj_on h.nodup).2 fun o ho o' ho' heq => h.eq_of_start ho ho' heq
  have hsub : objs.map Span.start ⊆ List.range n := fun i hi => by
    obtain ⟨o, ho, rfl⟩ := List.mem_map.1 hi
    exact List.mem_range.2 (lt_of_lt_of_le (h.start_lt_past ho) (hpast o ho))
  simpa using (List.subperm_of_subset hstarts hsub).length_le

/-- Some of the objects have no word in common either. -/
lemma filter (h : Separate objs) (keep : Span → Bool) : Separate (objs.filter keep) where
  words_pos o ho := h.words_pos o (List.mem_filter.1 ho).1
  pairwise := h.pairwise.filter keep

/-- The order of the objects does not matter. -/
lemma perm {os : List Span} (h : Separate objs) (hperm : objs.Perm os) : Separate os where
  words_pos o ho := h.words_pos o (hperm.mem_iff.2 ho)
  pairwise := hperm.pairwise h.pairwise Span.Apart.symm

lemma of_append_left {os : List Span} (h : Separate (objs ++ os)) : Separate objs where
  words_pos o ho := h.words_pos o (List.mem_append_left _ ho)
  pairwise := (List.pairwise_append.1 h.pairwise).1

lemma append {os : List Span} (h : Separate objs) (h' : Separate os)
    (hapart : ∀ o ∈ objs, ∀ o' ∈ os, o.Apart o') :
    Separate (objs ++ os) where
  words_pos o ho := (List.mem_append.1 ho).elim (h.words_pos o) (h'.words_pos o)
  pairwise := List.pairwise_append.2 ⟨h.pairwise, h'.pairwise, hapart⟩

/-- Every word of an object starts at or after the object and before its end. -/
lemma boundary_start (h : Separate objs) (ho : o ∈ objs) : Boundary objs o.start := by
  intro o' ho' hcross
  have heq : o' = o :=
    h.eq_of_covers ho' ho ⟨le_of_lt hcross.1, hcross.2⟩ ⟨le_refl _, h.start_lt_past ho⟩
  exact absurd hcross.1 (heq ▸ lt_irrefl _)

lemma boundary_past (h : Separate objs) (ho : o ∈ objs) : Boundary objs o.past := by
  intro o' ho' hcross
  rcases h.eq_or_apart ho' ho with heq | hapart | hapart
  · exact absurd hcross.2 (heq ▸ lt_irrefl _)
  · have := h.start_lt_past ho
    exact absurd hcross.2 (by omega)
  · exact absurd hcross.1 (not_lt.2 hapart)

/-- No object starts inside another one. -/
lemma not_starts_inside (h : Separate objs) (ho : o ∈ objs) (h1 : o.start < w) (h2 : w < o.past) :
    ¬Starts objs w := by
  rintro ⟨o', ho', rfl⟩
  exact h.boundary_start ho' o ho ⟨h1, h2⟩

end Separate

/-! ## Live words -/

lemma Span.covers_add {k : ℕ} (h : k < o.words) : o.Covers (o.start + k) :=
  ⟨Nat.le_add_right .., Nat.add_lt_add_left h _⟩

lemma Span.covers_start (h : 0 < o.words) : o.Covers o.start :=
  ⟨le_refl _, by simp only [Span.past]; omega⟩

lemma live_of_mem (ho : o ∈ objs) (hw : o.Covers w) : Live objs w :=
  ⟨o, ho, hw⟩

lemma live_cons : Live (o :: objs) w ↔ o.Covers w ∨ Live objs w := by
  simp [Live]

/-- Words from a boundary on are dead as long as no object starts. -/
lemma not_live_of_boundary (ha : Boundary objs a) (hnone : ∀ j, a ≤ j → j < b → ¬Starts objs j)
    (h1 : a ≤ w) (h2 : w < b) : ¬Live objs w := by
  rintro ⟨o, ho, hw⟩
  by_cases hlt : o.start < a
  · exact ha o ho ⟨hlt, lt_of_le_of_lt h1 hw.2⟩
  · exact hnone o.start (not_lt.1 hlt) (lt_of_le_of_lt hw.1 h2) ⟨o, ho, rfl⟩

/-- Dead words keep a boundary. -/
lemma Boundary.of_not_live (ha : Boundary objs a) (hab : a ≤ b)
    (hdead : ∀ j, a ≤ j → j < b → ¬Live objs j) :
    Boundary objs b := by
  rintro o ho ⟨h1, h2⟩
  by_cases hlt : o.start < a
  · exact ha o ho ⟨hlt, lt_of_le_of_lt hab h2⟩
  · exact hdead o.start (not_lt.1 hlt) h1 ⟨o, ho, le_refl _, lt_trans h1 h2⟩

/-- A live word at which no object starts lies inside one. -/
lemma crosses_of_live (hw : Live objs w) (hnot : ¬Starts objs w) : ∃ o ∈ objs, o.Crosses w := by
  obtain ⟨o, ho, h1, h2⟩ := hw
  refine ⟨o, ho, lt_of_le_of_ne h1 ?_, h2⟩
  rintro rfl
  exact hnot ⟨o, ho, rfl⟩

/-- At a boundary, a live word is the start of an object. -/
lemma Boundary.starts_of_live (ha : Boundary objs a) (hlive : Live objs a) : Starts objs a := by
  by_contra hnot
  obtain ⟨o, ho, hcross⟩ := crosses_of_live hlive hnot
  exact ha o ho hcross

/-! ## Reaching across -/

lemma reach_eq_of_crosses (h : Separate objs) (ho : o ∈ objs) (hcross : o.Crosses a) :
    reach objs a = o.past := by
  rw [reach]
  cases hfound : objs.find? (fun o => decide (o.Crosses a)) with
  | none => exact absurd hcross (by simpa using List.find?_eq_none.1 hfound o ho)
  | some o' =>
    have hcross' : o'.Crosses a := by simpa using List.find?_some hfound
    have heq : o' = o := h.eq_of_covers (List.mem_of_find?_eq_some hfound) ho
      ⟨le_of_lt hcross'.1, hcross'.2⟩ ⟨le_of_lt hcross.1, hcross.2⟩
    simp [heq]

lemma reach_eq_of_boundary (ha : Boundary objs a) : reach objs a = a := by
  rw [reach]
  cases hfound : objs.find? (fun o => decide (o.Crosses a)) with
  | none => rfl
  | some o =>
    exact absurd (by simpa using List.find?_some hfound) (ha o (List.mem_of_find?_eq_some hfound))

/-- Either no object reaches across, or the one that does ends at `reach`. -/
lemma boundary_or_crosses (h : Separate objs) (a : ℕ) :
    (Boundary objs a ∧ reach objs a = a) ∨ ∃ o ∈ objs, o.Crosses a ∧ reach objs a = o.past := by
  by_cases ha : Boundary objs a
  · exact Or.inl ⟨ha, reach_eq_of_boundary ha⟩
  · obtain ⟨o, ho, hcross⟩ : ∃ o ∈ objs, o.Crosses a := by
      simpa [Boundary] using ha
    exact Or.inr ⟨o, ho, hcross, reach_eq_of_crosses h ho hcross⟩

lemma le_reach (h : Separate objs) (a : ℕ) : a ≤ reach objs a := by
  rcases boundary_or_crosses h a with ⟨_, heq⟩ | ⟨o, _, hcross, heq⟩
  · exact le_of_eq heq.symm
  · exact heq ▸ le_of_lt hcross.2

lemma boundary_reach (h : Separate objs) (a : ℕ) : Boundary objs (reach objs a) := by
  rcases boundary_or_crosses h a with ⟨ha, heq⟩ | ⟨o, ho, _, heq⟩
  · rw [heq]
    exact ha
  · rw [heq]
    exact h.boundary_past ho

/-- The words from `a` up to its reach are live. -/
lemma live_of_lt_reach (h : Separate objs) (h1 : a ≤ w) (h2 : w < reach objs a) : Live objs w := by
  rcases boundary_or_crosses h a with ⟨_, heq⟩ | ⟨o, ho, hcross, heq⟩
  · omega
  · exact ⟨o, ho, le_trans (le_of_lt hcross.1) h1, heq ▸ h2⟩

/-- No object starts between `a` and its reach. -/
lemma not_starts_of_lt_reach (h : Separate objs) (h1 : a ≤ w) (h2 : w < reach objs a) :
    ¬Starts objs w := by
  rintro ⟨o', ho', rfl⟩
  rcases boundary_or_crosses h a with ⟨_, heq⟩ | ⟨o, ho, hcross, heq⟩
  · omega
  · have hsame := h.eq_of_covers ho ho' (w := o'.start) ⟨le_trans (le_of_lt hcross.1) h1, heq ▸ h2⟩
      ⟨le_refl _, h.start_lt_past ho'⟩
    exact absurd hcross.1 (by rw [hsame]; omega)

lemma reach_le (h : Separate objs) (hab : a ≤ b) (hb : Boundary objs b) : reach objs a ≤ b := by
  rcases boundary_or_crosses h a with ⟨_, heq⟩ | ⟨o, ho, hcross, heq⟩
  · omega
  · by_contra hlt
    exact hb o ho ⟨lt_of_lt_of_le hcross.1 hab, by omega⟩

/-! ## Counting live words -/

lemma liveBelow_succ (objs : List Span) (n : ℕ) :
    liveBelow objs (n + 1) = liveBelow objs n + if Live objs n then 1 else 0 :=
  Nat.count_succ _ n

lemma liveBelow_mono (objs : List Span) (h : x ≤ y) : liveBelow objs x ≤ liveBelow objs y :=
  Nat.count_monotone _ h

lemma liveBelow_le_add (objs : List Span) (h : x ≤ y) :
    liveBelow objs y ≤ liveBelow objs x + (y - x) := by
  induction y, h using Nat.le_induction with
  | base => omega
  | succ y hxy ih =>
    rw [liveBelow_succ]
    split <;> omega

lemma liveBelow_of_live (h : x ≤ y) (hlive : ∀ w, x ≤ w → w < y → Live objs w) :
    liveBelow objs y = liveBelow objs x + (y - x) := by
  induction y, h using Nat.le_induction with
  | base => omega
  | succ y hxy ih =>
    rw [liveBelow_succ, if_pos (hlive y hxy (Nat.lt_succ_self y)),
      ih fun w h1 h2 => hlive w h1 (Nat.lt_succ_of_lt h2)]
    omega

lemma liveBelow_of_dead (h : x ≤ y) (hdead : ∀ w, x ≤ w → w < y → ¬Live objs w) :
    liveBelow objs y = liveBelow objs x := by
  induction y, h using Nat.le_induction with
  | base => rfl
  | succ y hxy ih =>
    rw [liveBelow_succ, if_neg (hdead y hxy (Nat.lt_succ_self y)),
      ih fun w h1 h2 => hdead w h1 (Nat.lt_succ_of_lt h2), Nat.add_zero]

lemma liveBelow_lt (hlive : Live objs x) (h : x < y) : liveBelow objs x < liveBelow objs y :=
  Nat.count_strict_mono hlive h

/-- Where the count grows there is a first live word. -/
lemma exists_first_live (h : liveBelow objs x < liveBelow objs y) :
    ∃ w, x ≤ w ∧ w < y ∧ Live objs w ∧ liveBelow objs w = liveBelow objs x := by
  have hex : ∃ w, x ≤ w ∧ Live objs w := by
    obtain ⟨w, hw, hlive⟩ := Nat.exists_of_count_lt_count h
    exact ⟨w, hw.1, hlive⟩
  classical
  have hfirst := Nat.find_spec hex
  have hdead : ∀ j, x ≤ j → j < Nat.find hex → ¬Live objs j := fun j h1 h2 hj =>
    Nat.find_min hex h2 ⟨h1, hj⟩
  have hcount := liveBelow_of_dead hfirst.1 hdead
  refine ⟨Nat.find hex, hfirst.1, ?_, hfirst.2, hcount⟩
  by_contra hge
  have := liveBelow_mono objs (not_lt.1 hge)
  omega

/-- A live word is recovered from the number of live words below it. -/
lemma eq_of_liveBelow (hx : Live objs x) (hy : Live objs y)
    (h : liveBelow objs x = liveBelow objs y) : x = y :=
  Nat.count_injective hx hy h

/-- The words of an object are live and counted one by one. -/
lemma liveBelow_covers (ho : o ∈ objs) (h1 : o.start ≤ w) (h2 : w ≤ o.past) :
    liveBelow objs w = liveBelow objs o.start + (w - o.start) :=
  liveBelow_of_live h1 fun j hj1 hj2 => ⟨o, ho, hj1, by omega⟩

/-- An added object adds its words. -/
lemma liveBelow_cons (h : Separate (o :: objs)) (n : ℕ) :
    liveBelow (o :: objs) n = liveBelow objs n + (min n o.past - o.start) := by
  induction n with
  | zero => simp [liveBelow]
  | succ n ih =>
    rw [liveBelow_succ, liveBelow_succ, ih]
    by_cases hcov : o.Covers n
    · have hnot : ¬Live objs n := by
        rintro ⟨o', ho', hw⟩
        rcases h.apart_head ho' with hap | hap
        · exact absurd (lt_of_lt_of_le hcov.2 hap) (not_lt.2 hw.1)
        · exact absurd (lt_of_lt_of_le hw.2 hap) (not_lt.2 hcov.1)
      obtain ⟨h1, h2⟩ := hcov
      rw [if_pos (live_cons.2 (Or.inl ⟨h1, h2⟩)), if_neg hnot]
      omega
    · have hiff : Live (o :: objs) n ↔ Live objs n := by
        rw [live_cons]
        exact or_iff_right hcov
      simp only [hiff]
      simp only [Span.Covers, not_and, not_lt] at hcov
      by_cases hs : o.start ≤ n
      · have := hcov hs
        omega
      · omega

/-- Where every object lies within a range or outside of it, the live words of the range are those
of the objects within it. -/
lemma liveBelow_eq_add_sum (hsep : Separate objs) (hab : a ≤ b)
    (hbounds : ∀ o ∈ objs, (a ≤ o.start ∧ o.past ≤ b) ∨ o.past ≤ a ∨ b ≤ o.start) :
    liveBelow objs b = liveBelow objs a + ((objs.filter fun o => a ≤ o.start
      ∧ o.past ≤ b).map Span.words).sum := by
  induction objs with
  | nil => exact liveBelow_of_dead hab fun _ _ _ ⟨_, ho, _⟩ => absurd ho List.not_mem_nil
  | cons o rest ih =>
    have hpos := hsep.start_lt_past List.mem_cons_self
    have hwords : o.past = o.start + o.words := rfl
    rw [liveBelow_cons hsep, liveBelow_cons hsep,
      ih hsep.tail fun o' ho' => hbounds o' (List.mem_cons_of_mem _ ho'), List.filter_cons]
    rcases hbounds o List.mem_cons_self with hin | hout
    · rw [if_pos (by simpa using hin), List.map_cons, List.sum_cons]
      omega
    · rw [if_neg (by simp; omega)]
      omega

/-! ## Tilings -/

/-- The spans `tiles` follow one another without a gap from word `a` up to word `c`. -/
inductive Tiling : ℕ → List Span → ℕ → Prop
  | nil (a : ℕ) : Tiling a [] a
  | cons {c : ℕ} {o : Span} {rest : List Span} (pos : 0 < o.words) (next : Tiling o.past rest c) :
      Tiling o.start (o :: rest) c

namespace Tiling

variable {tiles rest : List Span} {c : ℕ}

lemma le (h : Tiling a tiles c) : a ≤ c := by
  induction h with
  | nil a => exact le_refl a
  | cons pos next ih => exact le_trans (Nat.le_add_right ..) ih

lemma bounds (h : Tiling a tiles c) (ho : o ∈ tiles) : a ≤ o.start ∧ o.past ≤ c := by
  induction h with
  | nil a => simp at ho
  | @cons c o' rest pos next ih =>
    rcases List.mem_cons.1 ho with rfl | hin
    · exact ⟨le_refl _, next.le⟩
    · exact ⟨le_trans (Nat.le_add_right ..) (ih hin).1, (ih hin).2⟩

lemma separate (h : Tiling a tiles c) : Separate tiles := by
  induction h with
  | nil a => exact ⟨by simp, List.Pairwise.nil⟩
  | cons pos next ih => exact ih.cons pos fun o' ho' => Or.inl (next.bounds ho').1

/-- Every word lies in a tile. -/
lemma live (h : Tiling a tiles c) (h1 : a ≤ w) (h2 : w < c) : Live tiles w := by
  induction h with
  | nil a => omega
  | @cons c o rest pos next ih =>
    by_cases hpast : w < o.past
    · exact ⟨o, List.mem_cons_self .., h1, hpast⟩
    · exact live_cons.2 (Or.inr (ih (not_lt.1 hpast) h2))

/-- The tiles from one of them on. -/
lemma from_mem (h : Tiling a tiles c) (ho : o ∈ tiles) :
    ∃ rest, Tiling o.start (o :: rest) c ∧ ∀ o' ∈ rest, o' ∈ tiles := by
  induction h with
  | nil a => simp at ho
  | @cons c o' rest pos next ih =>
    rcases List.mem_cons.1 ho with rfl | hin
    · exact ⟨rest, .cons pos next, fun o' ho' => List.mem_cons_of_mem _ ho'⟩
    · obtain ⟨rest', htiling, hsub⟩ := ih hin
      exact ⟨rest', htiling, fun o' ho' => List.mem_cons_of_mem _ (hsub o' ho')⟩

/-- Spans that do not meet, none of which reaches across an end of a range that they cover, tile the
range. -/
theorem of_cover {T : Span → Prop} (hpos : ∀ o, T o → 0 < o.words)
    (hsame : ∀ o o' w, T o → T o' → o.Covers w → o'.Covers w → o = o')
    (ha : ∀ o, T o → ¬o.Crosses a) (hc : ∀ o, T o → ¬o.Crosses c) (hac : a ≤ c)
    (hcover : ∀ w, a ≤ w → w < c → ∃ o, T o ∧ o.Covers w) :
    ∃ tiles, Tiling a tiles c ∧ ∀ o, o ∈ tiles ↔ T o ∧ a ≤ o.start ∧ o.start < c := by
  induction hn : c - a using Nat.strong_induction_on generalizing a with
  | _ n ih =>
    obtain hdone | hlt := hac.eq_or_lt
    · subst hdone
      exact ⟨[], .nil a, fun o => iff_of_false List.not_mem_nil fun h => by omega⟩
    obtain ⟨o, ho, hcov⟩ := hcover a le_rfl hlt
    have hstart : o.start = a := by
      by_contra hne
      exact ha o ho ⟨lt_of_le_of_ne hcov.1 hne, hcov.2⟩
    subst hstart
    have hopos := hpos o ho
    have hpast : o.past = o.start + o.words := rfl
    have hpastc : o.past ≤ c := not_lt.1 fun h => hc o ho ⟨hlt, h⟩
    obtain ⟨rest, hrest, hmem⟩ := ih (c - o.past) (by omega) (a := o.past) (fun o' ho' hcross => by
      -- A span across the end of the first one would share its last word.
      obtain ⟨h1, h2⟩ := hcross
      obtain rfl := hsame o o' (o.past - 1) ho ho' ⟨by omega, by omega⟩ ⟨by omega, by omega⟩
      exact lt_irrefl _ h2) hpastc (fun w h1 h2 => hcover w (by omega) h2) rfl
    refine ⟨o :: rest, .cons hopos hrest, fun o' => ?_⟩
    rw [List.mem_cons, hmem]
    constructor
    · rintro (rfl | ⟨ho', h1, h2⟩)
      · exact ⟨ho, le_rfl, hlt⟩
      · exact ⟨ho', by omega, h2⟩
    · rintro ⟨ho', h1, h2⟩
      by_cases hin : o'.start < o.past
      · exact Or.inl (hsame o' o o'.start ho' ho (Span.covers_start (hpos o' ho')) ⟨h1, hin⟩)
      · exact Or.inr ⟨ho', not_lt.1 hin, h2⟩

end Tiling

end MarkCompact
