import MarkCompact.Proofs.Repeating

/-!
# Which cycles are maximum compactions

A collector carries two counters from cycle to cycle, its cycles and the number of its last maximum
compaction, and decides from them.  What it decides can be said without them, of the cycles that it
has run: `FollowsPolicy`.  `Remembers` ties the counters to these cycles, and every cycle keeps it.

Main statements: `Remembers.collected` (a cycle keeps the counters right), `Ran.followsPolicy`
(every run follows the policy) and `Kept.exists_ran` (the host may ask for what it likes in each
cycle).
-/

namespace MarkCompact

/-! ## The past of a collector -/

/-- A cycle that has been run: whether the host asked for a maximum compaction, and what the cycle
did. -/
structure PastCycle where
  requested : Bool
  summary : CycleSummary

/-- The number was that of a maximum compaction.  Before the first cycle there is taken to have been
one. -/
def WasMaximum (past : List PastCycle) (number : ℕ) : Prop :=
  number = 0 ∨ ∃ cycle ∈ past, cycle.summary.number = number ∧ cycle.summary.maximum = true

/-- None of the `interval` numbers before this one was that of a maximum compaction. -/
def IsDue (interval : ℕ) (past : List PastCycle) (number : ℕ) : Prop :=
  ∀ j < number, number ≤ j + interval → ¬WasMaximum past j

/-- The cycle is a maximum compaction exactly if there is a reason for it. -/
def Justified (s : Settings) (past : List PastCycle) (cycle : PastCycle) : Prop :=
  cycle.summary.maximum = true ↔ cycle.requested = true ∨ s.useDensePrefix = false
    ∨ cycle.summary.number = s.firstMaximum
    ∨ IsDue s.maximumInterval past cycle.summary.number

/-- The cycles are numbered from one, each has a reason to be a maximum compaction or not, and among
as many as the interval and one more there always is one. -/
structure FollowsPolicy (s : Settings) (past : List PastCycle) : Prop where
  numbered : past.map (·.summary.number) = List.range' 1 past.length
  justified : ∀ cycle ∈ past, Justified s past cycle
  recurring : ∀ n, 0 < n → n + s.maximumInterval ≤ past.length →
    ∃ cycle ∈ past, n ≤ cycle.summary.number ∧ cycle.summary.number ≤ n + s.maximumInterval
      ∧ cycle.summary.maximum = true

variable {s : Settings} {past : List PastCycle} {cycle : PastCycle} {interval j last n number : ℕ}

lemma wasMaximum_append : WasMaximum (past ++ [cycle]) j
    ↔ WasMaximum past j ∨ cycle.summary.number = j ∧ cycle.summary.maximum = true := by
  simp only [WasMaximum, List.mem_append, List.mem_singleton, or_and_right, exists_or,
    exists_eq_left, or_assoc]

/-- What comes later does not make a number due. -/
lemma isDue_append (hle : number ≤ cycle.summary.number) :
    IsDue interval (past ++ [cycle]) number ↔ IsDue interval past number := by
  refine forall₃_congr fun j hlt _ => not_congr (wasMaximum_append.trans (or_iff_left ?_))
  rintro ⟨rfl, _⟩
  omega

lemma justified_append {later : PastCycle} (hle : cycle.summary.number ≤ later.summary.number) :
    Justified s (past ++ [later]) cycle ↔ Justified s past cycle := by
  rw [Justified, Justified, isDue_append hle]

/-- The last maximum compaction tells whether a number is due. -/
lemma isDue_iff (hlast : WasMaximum past last) (hlatest : ∀ j, WasMaximum past j → j ≤ last)
    (hlt : last < number) :
    IsDue interval past number ↔ interval < number - last := by
  constructor
  · intro hdue
    by_contra hle
    exact hdue last hlt (by omega) hlast
  · intro hpassed j hj hnear hmaximum
    have := hlatest j hmaximum
    omega

/-- Cycles that are justified recur: the last one of a window is due if no other is a maximum
compaction. -/
lemma exists_maximum (hnumbered : past.map (·.summary.number) = List.range' 1 past.length)
    (hjustified : ∀ cycle ∈ past, Justified s past cycle) (hpos : 0 < n)
    (hle : n + s.maximumInterval ≤ past.length) :
    ∃ cycle ∈ past, n ≤ cycle.summary.number ∧ cycle.summary.number ≤ n + s.maximumInterval
      ∧ cycle.summary.maximum = true := by
  by_contra hnone
  have hmem : n + s.maximumInterval ∈ past.map (·.summary.number) := by
    rw [hnumbered, List.mem_range'_1]
    omega
  obtain ⟨cycle, hin, hnumber⟩ := List.mem_map.1 hmem
  have hdue : IsDue s.maximumInterval past cycle.summary.number := by
    rintro j hj hnear (hzero | ⟨earlier, hearlier, rfl, hmaximum⟩)
    · omega
    · exact hnone ⟨earlier, hearlier, by omega, by omega, hmaximum⟩
  exact hnone ⟨cycle, hin, by omega, by omega,
    (hjustified cycle hin).2 (Or.inr (Or.inr (Or.inr hdue)))⟩

namespace Collector

variable {μ : Type}

/-! ## The counters -/

/-- The counters of a collector say what is needed of its past. -/
structure Remembers (c : Collector μ) (s : Settings) (past : List PastCycle) : Prop where
  settings : c.settings = s
  cycles : c.cycles = past.length
  last : WasMaximum past c.lastMaximum
  latest : ∀ j, WasMaximum past j → j ≤ c.lastMaximum
  last_le : c.lastMaximum ≤ past.length
  numbered : past.map (·.summary.number) = List.range' 1 past.length
  justified : ∀ cycle ∈ past, Justified s past cycle

lemma Remembers.follows {c : Collector μ} (ht : c.Remembers s past) : FollowsPolicy s past :=
  ⟨ht.numbered, ht.justified, fun _ hpos hle => exists_maximum ht.numbered ht.justified hpos hle⟩

/-- No cycle has been run yet. -/
lemma Remembers.created {c : Collector μ} (hsettings : c.settings = s) (hcycles : c.cycles = 0)
    (hlast : c.lastMaximum = 0) :
    c.Remembers s [] where
  settings := hsettings
  cycles := hcycles
  last := Or.inl hlast
  latest j hj := by
    rcases hj with rfl | ⟨cycle, hin, _⟩
    · exact Nat.zero_le _
    · exact absurd hin List.not_mem_nil
  last_le := hlast.le
  numbered := rfl
  justified _ hin := absurd hin List.not_mem_nil

/-- The decision, in words. -/
lemma isMaximum_iff {requested : Bool} : isMaximum s requested number last = true
    ↔ requested = true ∨ s.useDensePrefix = false ∨ number = s.firstMaximum
    ∨ s.maximumInterval < number - last := by
  simp only [isMaximum, Bool.or_eq_true, Bool.not_eq_true', decide_eq_true_eq, beq_iff_eq, or_assoc]
  rw [or_comm (a := _ < _)]

variable [ObjectModel μ]

open Heap in
/-- A cycle says of itself which number it has and whether it was a maximum compaction. -/
lemma runCycle_leads {limiter : Limiter} {maximum : Bool} {roots : Roots} {h : Heap μ} :
    Leads (fun _ => True) (runCycle s limiter maximum number roots) h fun out _ =>
      out.1.number = number ∧ out.1.maximum = maximum := by
  simp only [runCycle, leads_bind, leads_report, leads_get, leads_set, leads_pure]
  -- Wherever clearing, the phases and the reports lead, the answer has been fixed.
  exact (leads_true _ _).mono fun _ _ _ => (leads_true _ _).mono fun _ _ _ =>
    (leads_true _ _).mono fun _ _ _ =>
    ⟨trivial, trivial⟩

/-- What a cycle does to the counters. -/
lemma invoke_eq_ok {c c' : Collector μ} {roots roots' : Roots} {requested : Bool}
    {summary : CycleSummary} (h : c.invoke roots requested = .ok (summary, roots', c')) :
    summary.number = c.cycles + 1
      ∧ summary.maximum = isMaximum c.settings requested (c.cycles + 1) c.lastMaximum
      ∧ c'.settings = c.settings ∧ c'.cycles = c.cycles + 1
      ∧ c'.lastMaximum = if summary.maximum then c.cycles + 1 else c.lastMaximum := by
  obtain ⟨⟨⟨summary, roots⟩, heap⟩, hrun, heq⟩ := bind_eq_ok_iff.1 h
  obtain ⟨hnumber, hmaximum⟩ := runCycle_leads.of_eq hrun
  cases heq
  refine ⟨hnumber, hmaximum, rfl, rfl, ?_⟩
  rw [show summary.maximum = _ from hmaximum]

/-- A cycle keeps the counters right. -/
lemma Remembers.collected {c c' : Collector μ} {roots roots' : Roots} {requested : Bool}
    {summary : CycleSummary} (ht : c.Remembers s past)
    (hrun : c.invoke roots requested = .ok (summary, roots', c')) :
    c'.Remembers s (past ++ [⟨requested, summary⟩]) := by
  obtain ⟨hnumber, hmaximum, hsettings, hcycles, hlast⟩ := invoke_eq_ok hrun
  rw [ht.settings, ht.cycles] at hmaximum
  rw [ht.cycles] at hnumber hcycles hlast
  have hlt : c.lastMaximum < past.length + 1 := Nat.lt_succ_of_le ht.last_le
  have holder : ∀ cycle ∈ past, cycle.summary.number ≤ summary.number := fun cycle hin => by
    have hmem := List.mem_map_of_mem (f := (·.summary.number)) hin
    rw [ht.numbered, List.mem_range'_1] at hmem
    omega
  constructor
  case settings => exact hsettings.trans ht.settings
  case cycles => rw [hcycles, List.length_append, List.length_singleton]
  case last =>
    rw [hlast, wasMaximum_append]
    split
    case isTrue htrue => exact Or.inr ⟨hnumber, htrue⟩
    case isFalse => exact Or.inl ht.last
  case latest =>
    intro j hj
    rw [hlast]
    rcases wasMaximum_append.1 hj with hold | ⟨rfl, htrue⟩
    · have := ht.latest j hold
      split <;> omega
    · rw [if_pos htrue]
      exact hnumber.le
  case last_le =>
    rw [hlast, List.length_append, List.length_singleton]
    split <;> omega
  case numbered =>
    rw [List.map_append, ht.numbered, List.length_append, List.length_singleton, List.range'_concat,
      List.map_singleton, hnumber, Nat.one_mul, Nat.add_comm 1]
  case justified =>
    intro cycle hin
    rcases List.mem_append.1 hin with hold | hnew
    · exact (justified_append (holder cycle hold)).2 (ht.justified cycle hold)
    · obtain rfl := List.mem_singleton.1 hnew
      refine (justified_append (le_refl _)).2 ?_
      show summary.maximum = true ↔ _
      rw [hmaximum, isMaximum_iff, hnumber, isDue_iff ht.last ht.latest hlt]

/-! ## Runs -/

/-- A collector has been created with the settings, and has run these cycles since.  In between the
heap may have been changed in any way. -/
inductive Ran (s : Settings) : List PastCycle → Collector μ → Prop
  | created {e : Extent} {configs : List SpaceConfig} {image : μ} {c : Collector μ}
      (created : create s e configs image = .ok c) :
    Ran s [] c
  | changed {past : List PastCycle} {c : Collector μ} (ran : Ran s past c) (heap : Heap μ) :
      Ran s past { c with heap }
  | collected {past : List PastCycle} {c c' : Collector μ} {roots roots' : Roots} {requested : Bool}
      {summary : CycleSummary}
    (ran : Ran s past c) (run : c.invoke roots requested = .ok (summary, roots', c')) :
    Ran s (past ++ [⟨requested, summary⟩]) c'

/-- The counters are right all the time. -/
lemma Ran.remembers {c : Collector μ} (hran : Ran s past c) : c.Remembers s past := by
  induction hran with
  | created hcreated =>
    obtain ⟨_, _, rfl⟩ := create_eq_ok_iff.1 hcreated
    exact .created rfl rfl rfl
  | changed _ heap ht => exact { ht with }
  | collected _ hrun ht => exact ht.collected hrun

/-- Whatever hosts do, and whatever they ask for, maximum compactions follow the policy. -/
theorem Ran.followsPolicy {c : Collector μ} (hran : Ran s past c) : FollowsPolicy s past :=
  hran.remembers.follows

/-! ## Arbitrary requests -/

/-- If the host has seen to what it has to, it may ask for any sequence of cycles. -/
theorem Kept.exists_ran {c : Collector MemoryImage} {objects : List (List Span)} {roots : Roots}
    (hk : c.Kept) (ho : c.Offers objects roots.strong) (hran : Ran s past c)
    (requests : List Bool) :
    ∃ (later : List PastCycle) (c' : Collector MemoryImage),
      later.map PastCycle.requested = requests ∧ Ran s (past ++ later) c' := by
  induction requests generalizing c objects roots past with
  | nil => exact ⟨[], c, rfl, (List.append_nil past).symm ▸ hran⟩
  | cons requested rest ih =>
    obtain ⟨h, hc, _, heq⟩ := hk.invoke_eq ho requested
    obtain ⟨later, c', hrequests, hran'⟩ :=
      ih (hk.settled ((hk.wellFormed ho).plan_fits ho.points _ _) hc)
      (hk.offers_settled ho hc) (hran.collected heq)
    refine ⟨⟨requested, c.outcome objects roots requested h⟩ :: later, c',
      congrArg (requested :: ·) hrequests, ?_⟩
    rwa [List.append_cons]

/-- Five cycles over the linked objects. -/
theorem followsPolicy_linked : ∃ (past : List PastCycle) (c : Collector MemoryImage),
    past.map PastCycle.requested = [false, false, false, true, false] ∧ Ran linked.settings past c
      ∧ FollowsPolicy linked.settings past := by
  have hoffers : linked.Offers Heap.linkedObjects (⟨[64], []⟩ : Roots).strong := linked_offers
  obtain ⟨past, c, hrequests, hran⟩ :=
    linked_reached.kept.exists_ran hoffers (.created linked_creates)
    [false, false, false, true, false]
  exact ⟨past, c, hrequests, hran, hran.followsPolicy⟩

end Collector

end MarkCompact
