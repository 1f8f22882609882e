import MarkCompact.Proofs.Coordination
import MarkCompact.Proofs.FillLogs
import MarkCompact.Proofs.Updates

/-!
# Which tasks fill a gap

A gap belongs to the task that it starts in.  A task walks on from the end of its last object,
though, and a gap that starts there lies behind the task if the object ends where the task does: the
task fills it, and so does the next one, for which nothing reaches in from the left.

Main statements: `Plan.Part.taskGaps_eq` (the gaps of one task) and `Heap.gap_requests` (over all
tasks each gap is filled once, or twice if it starts between two tasks behind an object of the first
one).
-/

namespace MarkCompact

variable {p : Plan} {done : ℕ → Prop} {objs : List Span} {o : Span} {z : Zone} {W a b c i : ℕ}

/-! ## The gaps of a walk -/

/-- The gaps that a walk through a dense prefix meets are the holes that start on its way. -/
lemma Pieces.exists_holes {e : Extent} {pieces : List Piece}
    (hpieces : Pieces objs e (z.keep * W) a pieces c) (hsep : Separate objs)
    (hfirst : z.first * W ≤ a)
    (hopen : a < z.keep * W → a = z.first * W ∨ Live objs (a - 1) ∨ Starts objs a) :
    ∃ holes : List Span, pieces.filterMap Piece.gap? = holes.map (Span.run · e) ∧ holes.Nodup
      ∧ ∀ o, o ∈ holes ↔ z.Hole W objs o ∧ a ≤ o.start ∧ o.start < c := by
  induction hpieces with
  | nil a =>
    exact ⟨[], rfl, .nil,
      fun o => iff_of_false List.not_mem_nil fun h => absurd h.2.1 (not_le.2 h.2.2)⟩
  | @live c o rest mem next ih =>
    have hpos := hsep.start_lt_past mem
    obtain ⟨holes, heq, hnodup, hmem⟩ := ih (le_trans hfirst hpos.le) fun _ =>
      Or.inr (Or.inl (live_of_mem mem ⟨by omega, by omega⟩))
    refine ⟨holes, heq, hnodup,
      fun o' => (hmem o').trans (and_congr_right fun hole => and_congr_left fun _ => ?_)⟩
    -- No hole starts in the object.
    refine ⟨fun h1 => le_trans hpos.le h1, fun h1 => ?_⟩
    by_contra hlt
    exact hole.dead o'.start le_rfl hole.start_lt_past (live_of_mem mem ⟨h1, not_le.1 hlt⟩)
  | @dead a b c rest gap next ih =>
    have hlt := gap.lt
    have hlimit := gap.le_limit
    have hle := next.le hsep
    have hpast : Span.past ⟨a, b - a⟩ = b := by rw [Span.past]; dsimp only; omega
    have hole : z.Hole W objs ⟨a, b - a⟩ := by
      refine gap.hole hsep hfirst ?_
      rcases hopen (by omega) with hbottom | hlive | ⟨o, ho, hstart⟩
      · exact Or.inl hbottom
      · exact Or.inr hlive
      · exact absurd (live_of_mem ho (hstart ▸ Span.covers_start (hsep.words_pos o ho)))
          (gap.dead a le_rfl hlt)
    obtain ⟨holes, heq, hnodup, hmem⟩ :=
      ih (by omega) fun hbelow => Or.inr (Or.inr (gap.starts hbelow))
    refine ⟨⟨a, b - a⟩ :: holes, ?_, List.nodup_cons.2 ⟨fun hin => ?_, hnodup⟩, fun o => ?_⟩
    · rw [List.filterMap_cons, List.map_cons, heq]
      rfl
    · exact absurd ((hmem _).1 hin).2.1 (not_le.2 hlt)
    · rw [List.mem_cons, hmem]
      constructor
      · rintro (rfl | ⟨hole', h1, h2⟩)
        · exact ⟨hole, le_rfl, lt_of_lt_of_le hlt hle⟩
        · exact ⟨hole', by omega, h2⟩
      · rintro ⟨hole', h1, h2⟩
        by_cases hb : b ≤ o.start
        · exact Or.inr ⟨hole', hb, h2⟩
        · exact Or.inl (hole'.eq_of_covers hole ⟨le_rfl, hole'.start_lt_past⟩
            ⟨h1, by rw [hpast]; exact not_le.1 hb⟩)

/-- A walk up to `b` goes on to `d`, the end of the dead space behind its last object, unless an
object reaches across `b`.  So it meets the holes that start below `b`, and the one that starts
there if an object ends there. -/
lemma Zone.Hole.start_lt_iff {d : ℕ} (hole : z.Hole W objs o) (hsep : Separate objs)
    (hb : b ≤ z.keep * W)
    (hd : (b ≤ d ∧ Dead objs b d ∧ (d < z.keep * W → Starts objs d)) ∨ ∃ o' ∈ objs, d = o'.start
      ∧ d < b ∧ b < o'.past)
    (hfirst : z.first * W < b) :
    o.start < d ↔ o.start < b ∨ o.start = b ∧ ∃ o' ∈ objs, o'.past = o.start := by
  have hpos := hole.start_lt_past
  have hdead := hole.dead o.start le_rfl hpos
  rcases hd with ⟨hle, hbehind, hnext⟩ | ⟨o', ho', rfl, hlt, hover⟩
  · constructor
    · intro hmet
      by_cases hstart : o.start < b
      · exact Or.inl hstart
      -- The words from `b` on are dead, so the hole starts right behind an object.
      obtain ⟨o', ho', hlow, hhigh⟩ := hole.left.resolve_left (by omega)
      have hend : o.start = b := by
        by_contra hne
        exact hbehind (o.start - 1) (by omega) (by omega) (live_of_mem ho' ⟨hlow, hhigh⟩)
      have hpast : o'.past = o.start := by
        by_contra hne
        exact hdead (live_of_mem ho' ⟨by omega, by omega⟩)
      exact Or.inr ⟨hend, o', ho', hpast⟩
    · rintro (hlt | ⟨hend, _⟩)
      · exact lt_of_lt_of_le hlt hle
      · by_contra hge
        have hlimit := hole.past_le
        obtain ⟨o', ho', hstart⟩ := hnext (by omega)
        exact hdead (live_of_mem ho' ⟨by omega, by have := hsep.start_lt_past ho'; omega⟩)
  · -- The walk stops in front of the object, which reaches across `b`.
    refine ⟨fun hmet => Or.inl (by omega), fun hin => ?_⟩
    by_contra hge
    refine hdead (live_of_mem ho' ⟨not_lt.1 hge, ?_⟩)
    rcases hin with hlt' | ⟨hend, _⟩ <;> omega

/-! ## The gaps of a task -/

/-- The span starts in the task. -/
def PrefixTask.Owns (task : PrefixTask) (W : ℕ) (o : Span) : Prop :=
  task.regionBeg * W ≤ o.start ∧ o.start < task.regionEnd * W

/-- The span starts right behind the task, where an object ends that starts in it. -/
structure PrefixTask.Trails (task : PrefixTask) (W : ℕ) (objs : List Span) (o : Span) : Prop where
  start_eq : o.start = task.regionEnd * W
  ends : ∃ o' ∈ objs, task.Owns W o' ∧ o'.past = o.start

/-- Tasks of which one ends before the other begins have no word in common. -/
lemma PrefixTask.no_common_word {t t' : PrefixTask} {w : ℕ}
    (hapart : t.regionEnd ≤ t'.regionBeg ∨ t'.regionEnd ≤ t.regionBeg)
    (ht : t.regionBeg * W ≤ w ∧ w < t.regionEnd * W)
    (ht' : t'.regionBeg * W ≤ w ∧ w < t'.regionEnd * W) : False := by
  rcases hapart with hle | hle
  · have := Nat.mul_le_mul_right W hle
    omega
  · have := Nat.mul_le_mul_right W hle
    omega

namespace Plan.Part

open Heap

variable {μ : Type} {h : Heap μ} {task : PrefixTask} (hpart : p.Part done i z task) (hp : p.Valid)
  (hs : p.Serves h)
include hpart hp hs

/-- A task fills the holes that start in it, and the one that starts right behind it if the last of
its objects ends there. -/
theorem taskGaps_eq :
    ∃ holes : List Span, h.taskGaps task = .ok (holes.map (Span.run · p.covered)) ∧ holes.Nodup
      ∧ ∀ o, o ∈ holes ↔ z.Hole p.regionWords p.objs o
        ∧ (task.Owns p.regionWords o ∨ task.Trails p.regionWords p.objs o) := by
  have hz := hpart.mem
  have hzone := hp.ordered z hz
  have hsep := hp.separate
  have hfirst := Nat.mul_le_mul_right p.regionWords hpart.first_le
  have hbeg := Nat.mul_lt_mul_of_pos_right hpart.lt p.regionWords_pos
  have hkeep := Nat.mul_le_mul_right p.regionWords hpart.le_keep
  have hlast := Nat.mul_le_mul_right p.regionWords (hzone.keep_le_last p.regionWords_pos)
  have hwords := hzone.last_le
  obtain ⟨s, hspace, hmatches⟩ := hs.exists_space hpart.zone
  obtain ⟨c, hown_eq, hown⟩ := ownStart_eq hp hs hpart hmatches
  rw [taskGaps, hpart.space, space_eq hspace, ok_bind, hown_eq, ok_bind]
  dsimp only
  rw [hs.regionStart_eq, hmatches.densePrefix]
  by_cases hc : c < task.regionEnd * p.regionWords
  · obtain ⟨pieces, d, straddler, heq, hpieces, hd⟩ :=
      hs.consistent.marks.piecesIn_eq hown.boundary hc hkeep
      (by rw [hs.bitmap_covered]; omega)
    rw [hs.bitmap_covered] at heq hpieces hd
    obtain ⟨holes, hholes, hnodup, hmem⟩ :=
      hpieces.exists_holes hsep (by have := hown.le; omega) fun _ => hown.opens hc
    rw [if_pos (Extent.addr_lt_addr.2 hc), heq, ok_bind, hholes]
    refine ⟨holes, rfl, hnodup, fun o => (hmem o).trans (and_congr_right fun hole => ?_)⟩
    have hmet := hole.start_lt_iff hsep hkeep (by
      rcases hd with ⟨-, h1, -, h2, h3⟩ | ⟨o', ho', -, h1, h2, h3⟩
      · exact Or.inl ⟨h1, h2, h3⟩
      · exact Or.inr ⟨o', ho', h1, h2, h3⟩) (by omega)
    constructor
    · rintro ⟨h1, h2⟩
      rcases hmet.1 h2 with hlt | ⟨hend, o', ho', hpast⟩
      · exact Or.inl ⟨le_trans hown.le h1, hlt⟩
      · have hinside : c ≤ o'.start := by
          by_contra hlt
          exact hown.boundary o' ho' ⟨not_le.1 hlt, by omega⟩
        have hpos := hsep.start_lt_past ho'
        exact Or.inr ⟨hend, o', ho', ⟨le_trans hown.le hinside, by omega⟩, hpast⟩
    · rintro (⟨hlow, hhigh⟩ | ⟨hend, o', ho', ⟨hlow, hhigh⟩, hpast⟩)
      · exact ⟨hown.holes o hole hlow hhigh, hmet.2 (Or.inl hhigh)⟩
      · have hinside := hown.objects o' ho' hlow hhigh
        exact ⟨by omega, hmet.2 (Or.inr ⟨hend, o', ho', hpast⟩)⟩
  · rw [if_neg (by rw [Extent.addr_lt_addr]; exact hc)]
    refine ⟨[], rfl, .nil, fun o => iff_of_false List.not_mem_nil ?_⟩
    rintro ⟨hole, hstart | ⟨_, o', ho', hstart, _⟩⟩
    · have := hown.holes o hole hstart.1 hstart.2
      have := hstart.2
      omega
    · have := hown.objects o' ho' hstart.1 hstart.2
      have := hstart.2
      omega

end Plan.Part

/-- The first region is full and the word behind it is dead: the tasks of the first two regions both
fill that word. -/
example : (do
    let (_, m) ← Heap.fourRegions.bitmap.mark (Heap.fourRegions.covered.addr 0) 4
    let (_, m) ← m.mark (Heap.fourRegions.covered.addr 5) 3
    let spaces := Heap.fourRegions.spaces.map fun s =>
      { s with densePrefix := Heap.fourRegions.covered.addr 8 }
    let h := { Heap.fourRegions with bitmap := m, spaces }
    pure (← h.taskGaps ⟨0, 0, 1⟩, ← h.taskGaps ⟨0, 1, 2⟩))
      = Except.ok ([Span.run ⟨4, 1⟩ Heap.fourRegions.covered],
        [Span.run ⟨4, 1⟩ Heap.fourRegions.covered]) := by
  rfl

/-! ## How often a gap is filled -/

section

variable {α : Type} {q : α → Prop} {l : List α}

open Classical in
/-- Of several things, no two of which satisfy `q`, at most one is counted. -/
lemma countP_of_pairwise (hapart : l.Pairwise fun a b => ¬(q a ∧ q b)) :
    l.countP q = if ∃ a ∈ l, q a then 1 else 0 := by
  induction hapart with
  | nil => rw [List.countP_nil, if_neg (by simp)]
  | @cons a l hnot _ ih =>
    rw [List.countP_cons, ih]
    by_cases ha : q a
    · have hnone : ¬∃ b ∈ l, q b := fun ⟨b, hb, hqb⟩ => hnot b hb ⟨ha, hqb⟩
      rw [if_neg hnone, if_pos (decide_eq_true ha), if_pos ⟨a, List.mem_cons_self, ha⟩]
    · have hcons : (∃ b ∈ a :: l, q b) ↔ ∃ b ∈ l, q b := by
        rw [List.exists_mem_cons_iff, or_iff_right ha]
      rw [decide_eq_false ha, if_neg Bool.false_ne_true, Nat.add_zero]
      exact if_congr hcons.symm rfl rfl

end

namespace Plan

/-- The run is a hole of the dense prefix that the task is a part of. -/
def HoleOf (p : Plan) (task : PrefixTask) (gap : Run) (o : Span) : Prop :=
  ∃ z, p.zones[task.space]? = some z ∧ z.Hole p.regionWords p.objs o ∧ gap = o.run p.covered

/-- The run is a hole that starts in the task. -/
def Owned (p : Plan) (gap : Run) (task : PrefixTask) : Prop :=
  ∃ o, p.HoleOf task gap o ∧ task.Owns p.regionWords o

/-- The run is a hole that starts right behind the task and an object of it. -/
def Trailed (p : Plan) (gap : Run) (task : PrefixTask) : Prop :=
  ∃ o, p.HoleOf task gap o ∧ task.Trails p.regionWords p.objs o

end Plan

lemma Span.run_injective (e : Extent) : Function.Injective (Span.run · e) := by
  intro o o' heq
  obtain ⟨hstart, hwords⟩ := Run.mk.inj heq
  cases o
  cases o'
  exact congrArg₂ Span.mk (Extent.addr_inj.1 hstart) hwords

namespace Plan.Part

variable {μ : Type} {h : Heap μ} {task : PrefixTask}

open Classical in
/-- How often a task asks for a run to be filled. -/
lemma count_taskGaps (hpart : p.Part done i z task) (hp : p.Valid) (hs : p.Serves h)
    {gaps : List Run} (heq : h.taskGaps task = .ok gaps) (gap : Run) :
    gaps.count gap = (if p.Owned gap task then 1 else 0) + if p.Trailed gap task then 1 else 0 := by
  obtain ⟨holes, heq', hnodup, hmem⟩ := hpart.taskGaps_eq hp hs
  cases heq.symm.trans heq'
  have hzone : p.zones[task.space]? = some z := hpart.space ▸ hpart.zone
  rw [(hnodup.map (Span.run_injective p.covered)).count]
  have hin : ∀ q : Span → Prop, (∃ o, p.HoleOf task gap o ∧ q o)
      ↔ ∃ o, z.Hole p.regionWords p.objs o ∧ o.run p.covered = gap ∧ q o := by
    intro q
    constructor
    · rintro ⟨o, ⟨z', hz', hole, hgap⟩, hq⟩
      cases hzone.symm.trans hz'
      exact ⟨o, hole, hgap.symm, hq⟩
    · rintro ⟨o, hole, hgap, hq⟩
      exact ⟨o, ⟨z, hzone, hole, hgap.symm⟩, hq⟩
  by_cases howned : p.Owned gap task
  · obtain ⟨o, hole, hgap, howns⟩ := (hin _).1 howned
    have hnot : ¬p.Trailed gap task := fun htrailed => by
      obtain ⟨o', _, hgap', htrails⟩ := (hin _).1 htrailed
      obtain rfl := Span.run_injective p.covered (hgap.trans hgap'.symm)
      exact absurd htrails.start_eq (Nat.ne_of_lt howns.2)
    rw [if_pos (List.mem_map.2 ⟨o, (hmem o).2 ⟨hole, Or.inl howns⟩, hgap⟩), if_pos howned,
      if_neg hnot]
  · rw [if_neg howned, Nat.zero_add]
    refine if_congr ⟨?_, ?_⟩ rfl rfl
    · intro hgap
      obtain ⟨o, ho, hgap⟩ := List.mem_map.1 hgap
      obtain ⟨hole, howns | htrails⟩ := (hmem o).1 ho
      · exact absurd ((hin _).2 ⟨o, hole, hgap, howns⟩) howned
      · exact (hin _).2 ⟨o, hole, hgap, htrails⟩
    · intro htrailed
      obtain ⟨o, hole, hgap, htrails⟩ := (hin _).1 htrailed
      exact List.mem_map.2 ⟨o, (hmem o).2 ⟨hole, Or.inr htrails⟩, hgap⟩

end Plan.Part

namespace Upkeep.Tracks

variable {μ : Type} [ObjectModel μ] {K : Upkeep (FillLog μ) p} {tasks : List PrefixTask}
  {s s' : Stage (FillLog μ)}

open Classical in
/-- Filling a region asks for no fillers, and running a task for its gaps. -/
lemma count_step (htracks : K.Tracks tasks s) (hp : p.Valid) (hdivides : p.Divides tasks)
    (hstep : s.Step s') (gap : Run) :
    s'.heap.image.fills.count gap + (s.ran.countP (p.Owned gap) + s.ran.countP (p.Trailed gap))
      = s.heap.image.fills.count gap
        + (s'.ran.countP (p.Owned gap) + s'.ran.countP (p.Trailed gap)) := by
  cases hstep with
  | fill mem eq =>
    obtain ⟨i, z, htarget⟩ := htracks.target hp hdivides mem
    have hfills :=
      (Heap.fillRegion_keeps (f := FillLog.fills) (fun _ _ _ => rfl) (fun _ _ _ _ => rfl) hp htarget
      htracks.rests).of_eq eq
    exact congrArg (fun fills => List.count gap fills + _) hfills
  | @update task _ mem eq =>
    obtain ⟨z, hpart⟩ := htracks.part hp hdivides mem
    obtain ⟨gaps, hgaps, hfills⟩ := (Heap.updatePrefix_fills task).of_eq eq
    have hcount := hpart.count_taskGaps hp htracks.rests.serves hgaps gap
    simp only [Stage.update, hfills, List.count_append, List.count_reverse, List.countP_cons,
      hcount, decide_eq_true_eq]
    omega

open Classical in
/-- What has been asked for is what the tasks that have been run ask for. -/
theorem count_reach (htracks : K.Tracks tasks s) (hp : p.Valid) (hdivides : p.Divides tasks)
    (hsteps : Relation.ReflTransGen Stage.Step s s') (gap : Run) :
    s'.heap.image.fills.count gap + (s.ran.countP (p.Owned gap) + s.ran.countP (p.Trailed gap))
      = s.heap.image.fills.count gap
        + (s'.ran.countP (p.Owned gap) + s'.ran.countP (p.Trailed gap)) := by
  induction hsteps with
  | refl => rfl
  | @tail s₁ s₂ hsteps hstep ih =>
    have hlast := (htracks.reach hp hdivides hsteps).count_step hp hdivides hstep gap
    omega

end Upkeep.Tracks

/-! ## In terms of the heap -/

namespace Heap

variable {μ : Type}

/-- The run is all the dead space of the dense prefix of a space between two live words, or between
one and an end of the prefix. -/
structure DeadRun (h : Heap μ) (s : Space) (gap : Run) : Prop where
  aligned : ∃ w, gap.start = h.covered.addr w
  bottom_le : s.bottom ≤ gap.start
  stop_le : gap.stop ≤ s.densePrefix
  pos : 0 < gap.words
  dead : ∀ k < gap.words, h.isLiveWord (gap.start + bytesPerWord * k) = .ok false
  left : gap.start = s.bottom ∨ h.isLiveWord (gap.start - bytesPerWord) = .ok true
  right : gap.stop = s.densePrefix ∨ h.isLiveWord gap.stop = .ok true

/-- The run starts where the task ends, and there ends an object that starts in the task. -/
structure TaskTrails (h : Heap μ) (task : PrefixTask) (gap : Run) : Prop where
  deadRun : ∃ s, h.spaces[task.space]? = some s ∧ h.DeadRun s gap
  start_eq : gap.start = h.table.regionStart task.regionEnd
  ends : ∃ o, h.HasMarked o ∧ h.table.regionStart task.regionBeg ≤ h.covered.addr o.start
    ∧ h.covered.addr o.past = gap.start

end Heap

namespace Plan.Serves

variable {μ : Type} {h : Heap μ} {s : Space} {gap : Run} {task : PrefixTask}
  {tasks : List PrefixTask} (hs : p.Serves h) (hp : p.Valid)
include hs hp

lemma isLiveWord_iff {w : ℕ} {b : Bool} (hw : w < p.covered.words) :
    h.isLiveWord (p.covered.addr w) = .ok b ↔ decide (Live p.objs w) = b := by
  rw [Heap.isLiveWord_eq hs hp hw, Except.ok.injEq]

/-- The words of a run are not live if they are dead. -/
lemma dead_run_iff (hpast : o.past ≤ p.covered.words) :
    (∀ k < (o.run p.covered).words, h.isLiveWord ((o.run p.covered).start + bytesPerWord * k)
      = .ok false)
      ↔ Dead p.objs o.start o.past := by
  rw [Span.past] at hpast
  have hword : ∀ k < o.words,
      h.isLiveWord ((o.run p.covered).start + bytesPerWord * k) = .ok false
        ↔ ¬Live p.objs (o.start + k) := fun k hk => by
    rw [Span.run, Extent.addr_add, hs.isLiveWord_iff hp (by omega), decide_eq_false_iff_not]
  constructor
  · intro hruns x hlow hhigh
    rw [Span.past] at hhigh
    have hx : x - o.start < o.words := by omega
    have hnot := (hword _ hx).1 (hruns _ hx)
    rwa [Nat.add_sub_cancel' hlow] at hnot
  · intro hdead k hk
    have hk : k < o.words := hk
    exact (hword k hk).2 (hdead _ (Nat.le_add_right _ _) (by rw [Span.past]; omega))

/-- At the bottom there is no word in front of the run; elsewhere that word decides. -/
lemma left_run_iff {x : ℕ} (hbottom : s.bottom = p.covered.addr x) (hlow : x ≤ o.start)
    (hhigh : o.start < p.covered.words) :
    ((o.run p.covered).start = s.bottom ∨ h.isLiveWord
      ((o.run p.covered).start - bytesPerWord) = .ok true)
      ↔ (o.start = x ∨ Live p.objs (o.start - 1)) := by
  rw [hbottom]
  refine (or_congr_left Extent.addr_inj).trans (or_congr_right' fun hne => ?_)
  have hbehind : (o.run p.covered).start - bytesPerWord = p.covered.addr (o.start - 1) := by
    show p.covered.addr o.start - bytesPerWord = _
    rw [Extent.addr_eq, Extent.addr_eq, bytesPerWord]
    omega
  rw [hbehind, hs.isLiveWord_iff hp (by omega), decide_eq_true_iff]

/-- At the end of the prefix the word behind the run does not matter; elsewhere it decides. -/
lemma right_run_iff {x : ℕ} (htop : s.densePrefix = p.covered.addr x) (hpast : o.past ≤ x)
    (hx : x ≤ p.covered.words) :
    ((o.run p.covered).stop = s.densePrefix ∨ h.isLiveWord (o.run p.covered).stop = .ok true)
      ↔ (o.past = x ∨ Live p.objs o.past) := by
  have hstop : (o.run p.covered).stop = p.covered.addr o.past := p.covered.addr_add o.start o.words
  rw [hstop, htop]
  refine (or_congr_left Extent.addr_inj).trans (or_congr_right' fun hne => ?_)
  rw [hs.isLiveWord_iff hp (by omega), decide_eq_true_iff]

/-- The maximal dead runs are the holes. -/
lemma deadRun_run (hz : z ∈ p.zones) (hmatches : s.Matches p.covered p.regionWords p.objs z) :
    h.DeadRun s (o.run p.covered) ↔ z.Hole p.regionWords p.objs o := by
  have hzone := hp.ordered z hz
  have hkeep : z.keep * p.regionWords ≤ p.covered.words :=
    le_trans (le_trans hzone.keep_le_top hzone.top_le_last) hzone.last_le
  have hstop : (o.run p.covered).stop = p.covered.addr o.past := p.covered.addr_add o.start o.words
  have hbottom : s.bottom ≤ (o.run p.covered).start ↔ z.first * p.regionWords ≤ o.start := by
    rw [hmatches.bottom]
    exact Extent.addr_le_addr
  have htop : (o.run p.covered).stop ≤ s.densePrefix ↔ o.past ≤ z.keep * p.regionWords := by
    rw [hstop, hmatches.densePrefix]
    exact Extent.addr_le_addr
  constructor
  · intro hrun
    have h1 := hbottom.1 hrun.bottom_le
    have h2 := htop.1 hrun.stop_le
    have hpos : 0 < o.words := hrun.pos
    have hlt : o.start < o.past := Nat.lt_add_of_pos_right hpos
    exact ⟨h1, h2, hpos, (hs.dead_run_iff hp (h2.trans hkeep)).1 hrun.dead,
      (hs.left_run_iff hp hmatches.bottom h1 (by omega)).1 hrun.left,
      (hs.right_run_iff hp hmatches.densePrefix h2 hkeep).1 hrun.right⟩
  · intro hole
    have hlt := hole.start_lt_past
    have hpast := hole.past_le
    exact ⟨⟨o.start, by rw [hs.covered]; rfl⟩, hbottom.2 hole.first_le, htop.2 hpast, hole.pos,
      (hs.dead_run_iff hp (hpast.trans hkeep)).2 hole.dead,
      (hs.left_run_iff hp hmatches.bottom hole.first_le (by omega)).2 hole.left,
      (hs.right_run_iff hp hmatches.densePrefix hpast hkeep).2 hole.right⟩

lemma deadRun_iff (hz : z ∈ p.zones) (hmatches : s.Matches p.covered p.regionWords p.objs z) :
    h.DeadRun s gap ↔ ∃ o, z.Hole p.regionWords p.objs o ∧ gap = o.run p.covered := by
  constructor
  · intro hdead
    obtain ⟨w, hstart⟩ := hdead.aligned
    obtain ⟨start, n⟩ := gap
    rw [hs.covered] at hstart
    have hgap : (⟨start, n⟩ : Run) = Span.run ⟨w, n⟩ p.covered := congrArg (Run.mk · n) hstart
    exact ⟨⟨w, n⟩, (hs.deadRun_run hp hz hmatches).1 (hgap ▸ hdead), hgap⟩
  · rintro ⟨o, hole, rfl⟩
    exact (hs.deadRun_run hp hz hmatches).2 hole

lemma taskTrails_iff : h.TaskTrails task gap ↔ p.Trailed gap task := by
  have hdead : (∃ s, h.spaces[task.space]? = some s ∧ h.DeadRun s gap)
      ↔ ∃ o, p.HoleOf task gap o := by
    constructor
    · rintro ⟨s, hspace, hdead⟩
      obtain ⟨z, hz, hmatches⟩ := hs.exists_zone hspace
      obtain ⟨o, hole, hgap⟩ := (hs.deadRun_iff hp (List.mem_of_getElem? hz) hmatches).1 hdead
      exact ⟨o, z, hz, hole, hgap⟩
    · rintro ⟨o, z, hz, hole, hgap⟩
      obtain ⟨s, hspace, hmatches⟩ := hs.exists_space hz
      exact ⟨s, hspace, (hs.deadRun_iff hp (List.mem_of_getElem? hz) hmatches).2 ⟨o, hole, hgap⟩⟩
  constructor
  · rintro ⟨hrun, hstart, o', ho', hlow, hpast⟩
    obtain ⟨o, z, hz, hole, rfl⟩ := hdead.1 hrun
    rw [hs.regionStart_eq] at hstart hlow
    rw [hs.covered] at hlow hpast
    have ho' := hs.hasMarked_iff.1 ho'
    have hlow := Extent.addr_le_addr.1 hlow
    have hpast : o'.past = o.start := Extent.addr_inj.1 hpast
    have hstart : o.start = task.regionEnd * p.regionWords := Extent.addr_inj.1 hstart
    have hpos := hp.separate.start_lt_past ho'
    exact ⟨o, ⟨z, hz, hole, rfl⟩, hstart, o', ho', ⟨hlow, by omega⟩, hpast⟩
  · rintro ⟨o, hole, hstart, o', ho', ⟨hlow, _⟩, hpast⟩
    obtain ⟨_, _, _, rfl⟩ := id hole
    refine ⟨hdead.2 ⟨o, hole⟩, ?_, o', hs.hasMarked_iff.2 ho', ?_, ?_⟩
    · rw [hs.regionStart_eq]
      exact congrArg p.covered.addr hstart
    · rw [hs.regionStart_eq, hs.covered, Extent.addr_le_addr]
      exact hlow
    · rw [hs.covered]
      exact congrArg p.covered.addr hpast

open Classical in
/-- Each maximal dead run is owned by one task. -/
lemma countP_owned (hdivides : p.Divides tasks) (gap : Run) :
    tasks.countP (p.Owned gap) = if ∃ s ∈ h.spaces, h.DeadRun s gap then 1 else 0 := by
  have hapart : tasks.Pairwise fun a b => ¬(p.Owned gap a ∧ p.Owned gap b) := by
    refine hdivides.apart.imp fun {a b} hab => ?_
    rintro ⟨⟨o, ⟨_, _, _, rfl⟩, h1, h2⟩, o', ⟨_, _, _, hgap⟩, h3, h4⟩
    obtain rfl := Span.run_injective p.covered hgap
    exact PrefixTask.no_common_word hab ⟨h1, h2⟩ ⟨h3, h4⟩
  rw [countP_of_pairwise hapart]
  refine if_congr ⟨?_, ?_⟩ rfl rfl
  · rintro ⟨task, _, o, ⟨z, hz, hole, hgap⟩, _⟩
    obtain ⟨s, hspace, hmatches⟩ := hs.exists_space hz
    exact ⟨s, List.mem_of_getElem? hspace,
      (hs.deadRun_iff hp (List.mem_of_getElem? hz) hmatches).2 ⟨o, hole, hgap⟩⟩
  · rintro ⟨s, hspace, hdead⟩
    obtain ⟨i, hi⟩ := List.mem_iff_getElem?.1 hspace
    obtain ⟨z, hz, hmatches⟩ := hs.exists_zone hi
    have hmem := List.mem_of_getElem? hz
    obtain ⟨o, hole, hgap⟩ := (hs.deadRun_iff hp hmem hmatches).1 hdead
    have h1 := hole.first_le
    have h2 := hole.past_le
    have hpos := hole.start_lt_past
    have hlow : z.first ≤ o.start / p.regionWords := (Nat.le_div_iff_mul_le p.regionWords_pos).2 h1
    have hhigh : o.start / p.regionWords < z.keep := div_lt_of_lt_mul (by omega)
    -- The task of the region in which the run starts.
    obtain ⟨task, htask, hbeg, hend⟩ := hdivides.covers z hmem _ hlow hhigh
    obtain ⟨z', hz', hfirst, _, hkeep⟩ := hdivides.part task htask
    have hlast := (hp.ordered z hmem).keep_le_last p.regionWords_pos
    have hlast' := (hp.ordered z' (List.mem_of_getElem? hz')).keep_le_last p.regionWords_pos
    obtain rfl :=
      hp.eq_of_region hmem (List.mem_of_getElem? hz') hlow (by omega)
        (le_trans hfirst hbeg) (by omega)
    exact ⟨task, htask, o, ⟨z, hz', hole, hgap⟩, (Nat.le_div_iff_mul_le p.regionWords_pos).1 hbeg,
      (Nat.div_lt_iff_lt_mul p.regionWords_pos).1 hend⟩

open Classical in
/-- At most one task ends in front of a maximal dead run, behind an object of its own. -/
lemma countP_trailed (hdivides : p.Divides tasks) (gap : Run) :
    tasks.countP (p.Trailed gap) = if ∃ task ∈ tasks, h.TaskTrails task gap then 1 else 0 := by
  have hapart : tasks.Pairwise fun a b => ¬(p.Trailed gap a ∧ p.Trailed gap b) := by
    refine hdivides.apart.imp fun {a b} hab => ?_
    rintro ⟨⟨o, ⟨_, _, _, rfl⟩, h1, _, _, ⟨h2, h3⟩, _⟩, o', ⟨_, _, _, hgap⟩, h4, _, _, ⟨h5, h6⟩, _⟩
    obtain rfl := Span.run_injective p.covered hgap
    -- The word in front of the run would lie in both tasks.
    have ha : a.regionBeg * p.regionWords ≤ o.start - 1
        ∧ o.start - 1 < a.regionEnd * p.regionWords := by omega
    have hb : b.regionBeg * p.regionWords ≤ o.start - 1
        ∧ o.start - 1 < b.regionEnd * p.regionWords := by omega
    exact PrefixTask.no_common_word hab ha hb
  rw [countP_of_pairwise hapart]
  refine if_congr ?_ rfl rfl
  exact exists_congr fun task => and_congr_right fun _ => (hs.taskTrails_iff hp).symm

end Plan.Serves

namespace Heap

section

variable {μ : Type} [ObjectModel μ] {h : Heap (FillLog μ)} {objs : List Span} {zones : List Zone}
  {minimum : ℕ} (hm : h.Marked objs zones) (hcloses : ClosesGaps μ minimum)
  (hfits : h.FillersFit objs zones minimum) (limiter : Limiter) (maximum : Bool)
include hm hcloses hfits

open Classical in
/-- However the dense prefixes are divided and in whatever order the tasks are run, once all of them
have been run each maximal dead run has been filled once, and once more if a task ends in front of
it behind an object of its own.  Nothing else has been filled. -/
theorem gap_requests :
    Runs (planSpaces limiter maximum) h fun _ h₁ => ∀ tasks, h₁.Partitioned tasks →
    Runs (claimReadySpaces h₁.spaces.reverse []) h₁ fun queued h₂ =>
      ∀ s, Relation.ReflTransGen Stage.Step { heap := h₂, queued, tasks } s → s.tasks = [] → ∀ gap,
        s.heap.image.fills.count gap = h₁.image.fills.count gap
          + ((if ∃ sp ∈ h₁.spaces, h₁.DeadRun sp gap then 1 else 0)
            + if ∃ task ∈ tasks, h₁.TaskTrails task gap then 1 else 0) := by
  refine (hm.unplanned.planSpaces_runs (FillLog.closesGaps hcloses) hfits limiter maximum).mono
    fun _ h₁ => ?_
  rintro ⟨fillers, zones', hplanned⟩ tasks htasks
  have hu := hplanned.unbegun hm.unplanned fun _ => 0
  have hp := hplanned.valid hm.unplanned fun _ => 0
  have hdivides := hu.serves.divides htasks
  have hholes := Plan.hostUpkeep_closesHoles (FillLog μ) hp
  refine (claimFirst_runs hholes hu hp (hu.hostReaches hp) tasks).mono fun queued h₂ => ?_
  rintro ⟨⟨table, rfl⟩, htracks⟩ s hsteps hidle gap
  have hcount := htracks.count_reach hp hdivides hsteps gap
  have hran : s.ran.Perm tasks := by
    have hperm := (htracks.reach hp hdivides hsteps).perm
    rwa [hidle, List.append_nil] at hperm
  rw [hran.countP_eq, hran.countP_eq, hu.serves.countP_owned hp hdivides,
    hu.serves.countP_trailed hp hdivides] at hcount
  simpa only [List.countP_nil, Nat.add_zero] using hcount

end

end Heap

end MarkCompact
