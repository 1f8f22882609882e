import MarkCompact.Proofs.TeamRuns

/-!
# One worker goes one way

Where several workers take steps in any order, the objects that wait are taken in any order.  The
marking that is carried out takes them in one order, that of a worker on its own which never looks
in the queues before its segment is empty.

Main statement: `scanPending_reaches` (marking from the roots on is a run of a team of one).
-/

namespace MarkCompact

open MarkTeam Heap

variable {μ : Type} {n : ℕ}

section

variable [ObjectModel μ]

namespace MarkTeam

/-- Some run leads from one state to the other. -/
def Reaches (t t' : MarkTeam μ n) : Prop :=
  ∃ k, t.RunsTo k t'

lemma Reaches.trans {t t' t'' : MarkTeam μ n} (h : t.Reaches t') (h' : t'.Reaches t'') :
    t.Reaches t'' := by
  obtain ⟨k, hrun⟩ := h
  obtain ⟨k', hrun'⟩ := h'
  exact ⟨_, hrun.trans hrun'⟩

/-- A worker on its own. -/
def solo (p : Workplace μ) (m : Marker (ObjectModel.Slot μ)) : MarkTeam μ 1 :=
  ⟨p, fun _ => m⟩

variable {p p' : Workplace μ} {m m' : Marker (ObjectModel.Slot μ)}

lemma solo_act (w : Fin 1) : (solo p m).act w p' m' = solo p' m' := by
  refine congrArg (MarkTeam.mk p') (funext fun v => ?_)
  rw [Subsingleton.elim v w, Function.update_self]

lemma solo_works (h : m.Works 0 p p' m') : (solo p m).Reaches (solo p' m') := by
  have hstep : (solo p m).Step 0 true ((solo p m).act 0 p' m') := .work h
  rw [solo_act] at hstep
  exact ⟨_, (RunsTo.refl _).step hstep⟩

lemma solo_rests (h : m.Rests 0 p p' m') : (solo p m).Reaches (solo p' m') := by
  have hstep : (solo p m).Step 0 false ((solo p m).act 0 p' m') := .rest h
  rw [solo_act] at hstep
  exact ⟨_, (RunsTo.refl _).step hstep⟩

end MarkTeam

variable {h : Heap μ} {roots totals : MarkTotals} {scanned : List ℕ} {pending : Pending}
  {slots rest : List (ObjectModel.Slot μ)}

/-- A worker on its own with the pending objects, after it has counted `totals` in addition to the
roots. -/
def Pending.solo (pending : Pending) (h : Heap μ) (roots totals : MarkTotals) (scanned : List ℕ)
    (doing : Activity (ObjectModel.Slot μ)) : MarkTeam μ 1 :=
  MarkTeam.solo ⟨h, ⟨pending.shared, [pending.overflow], 0⟩, .forWorkers 1, roots, scanned⟩
    ⟨pending.segment, pending.marked, totals, doing⟩

namespace Pending

/-- The worker shares as much of its segment as it is to. -/
lemma reaches_share (target : ℕ) (segment overflow : List ℕ) (shared : Fifo ℕ) (marked : ℕ) :
    (solo ⟨segment, overflow, shared, marked⟩ h roots totals scanned
      (.sharing target slots)).Reaches
      (solo ⟨(share target segment shared).1, overflow, (share target segment shared).2,
        0⟩ h roots totals scanned
        (.visiting slots)) := by
  induction segment generalizing shared with
  | nil => exact solo_works (.shared rfl (Nat.zero_le target))
  | cons a segment ih =>
    rw [share]
    split
    case isTrue hmore => exact (solo_works (.share rfl rfl hmore)).trans (ih (shared.push a))
    case isFalse henough => exact solo_works (.shared rfl (not_lt.1 henough))

/-- A marked object is put where it belongs. -/
lemma reaches_add (pending : Pending) (a : ℕ) :
    (pending.solo h roots totals scanned (.holding a slots)).Reaches
    ((pending.add a).solo h roots totals scanned (.visiting slots)) := by
  rw [add]
  split
  case isFalse hfull => exact solo_works (.push rfl (not_lt.1 hfull) rfl)
  case isTrue hroom =>
    have hput :=
      solo_works (.put (p := ⟨h, ⟨pending.shared, [pending.overflow], 0⟩, .forWorkers 1,
        roots, scanned⟩)
      (m := ⟨pending.segment, pending.marked, totals, .holding a slots⟩) (w := 0) rfl hroom)
    rw [Marker.put] at hput
    dsimp only at hput ⊢
    split
    case isTrue hbusy =>
      rw [if_pos hbusy] at hput
      split
      case isTrue hlong =>
        rw [if_pos hlong] at hput
        exact hput.trans (reaches_share _ (a :: pending.segment) pending.overflow pending.shared
          pending.marked)
      case isFalse hshort =>
        rw [if_neg hshort] at hput
        exact hput
    case isFalse hidle =>
      rw [if_neg hidle] at hput
      exact hput

end Pending

/-! ## Scanning -/

lemma MarkTotals.merge_count (t t' : MarkTotals) (words : ℕ) :
    (t.merge t').count words = t.merge (t'.count words) := by
  simp only [merge, count, Nat.add_assoc]

namespace Heap

/-- The worker visits the slots of an object. -/
lemma visitSlots_reaches (scanned : List ℕ) (rest : List (ObjectModel.Slot μ))
    {slots : List (ObjectModel.Slot μ)} :
    Leads (fun _ => True) (visitSlots slots (pending, roots.merge totals)) h fun state h' =>
      ∃ totals', state.2 = roots.merge totals'
      ∧ (pending.solo h roots totals scanned (.visiting (slots ++ rest))).Reaches
        (state.1.solo h' roots totals' scanned (.visiting rest)) := by
  induction slots generalizing h pending totals with
  | nil =>
    rw [visitSlots, leads_pure]
    exact ⟨totals, rfl, 0, .refl _⟩
  | cons slot slots ih =>
    rw [visitSlots, leads_bind, leads_get, leads_bind, leads_check]
    refine ⟨fun a hload => ?_, fun _ _ => trivial⟩
    rw [leads_bind]
    refine (leads_true (markObject a) h).with_eq.mono fun out h₁ => ?_
    rintro ⟨-, heq⟩
    cases out with
    | none =>
      refine ih.mono fun state h' => ?_
      rintro ⟨totals', htotals, hreaches⟩
      exact ⟨totals', htotals, (solo_works (.skip rfl hload heq)).trans hreaches⟩
    | some words =>
      dsimp only
      rw [MarkTotals.merge_count]
      refine ih.mono fun state h' => ?_
      rintro ⟨totals', htotals, hreaches⟩
      exact ⟨totals', htotals,
        (solo_works (.mark rfl hload heq)).trans ((pending.reaches_add a).trans hreaches)⟩

/-- The worker scans an object whose slots it has found. -/
lemma scanObject_reaches (scanned : List ℕ) {a : ℕ} :
    Leads (fun _ => True) (scanObject a (pending, roots.merge totals)) h fun state h' =>
      ∃ totals' slots,
      ObjectModel.allSlots h.image a = .ok slots ∧ state.2 = roots.merge totals'
        ∧ (pending.solo h roots totals scanned (.visiting slots)).Reaches
          (state.1.solo h' roots totals' scanned (.seeking {})) := by
  rw [scanObject, leads_bind, leads_get, leads_bind, leads_check]
  refine ⟨fun slots hslots => ?_, fun _ _ => trivial⟩
  rw [leads_bind]
  refine (visitSlots_reaches scanned (ObjectModel.metadataSlot h.image a).toList).mono
    fun state h₁ => ?_
  rintro ⟨totals₁, htotals, hreaches⟩
  obtain ⟨pending₁, _⟩ := state
  cases htotals
  refine (visitSlots_reaches scanned []).mono fun state h₂ => ?_
  rintro ⟨totals₂, htotals, hreaches'⟩
  rw [List.append_nil] at hreaches'
  refine ⟨totals₂, slots ++ (ObjectModel.metadataSlot h.image a).toList, ?_, htotals,
    (hreaches.trans hreaches').trans (solo_works (.visited rfl))⟩
  rw [ObjectModel.allSlots, hslots]
  rfl

/-- The worker takes the next object, from where it looks first. -/
lemma next_reaches {pending' : Pending} {a : ℕ} {slots : List (ObjectModel.Slot μ)}
    (hnext : pending.next? = some (a, pending'))
    (hslots : ObjectModel.allSlots h.image a = .ok slots) :
    (pending.solo h roots totals scanned (.seeking {})).Reaches
      (pending'.solo h roots totals (a :: scanned) (.visiting slots)) := by
  obtain ⟨segment, overflow, shared, marked⟩ := pending
  cases segment with
  | cons b segment =>
    cases hnext
    exact solo_works (.take rfl rfl hslots)
  | nil =>
    cases overflow with
    | cons b overflow =>
      cases hnext
      exact solo_works (.obtain rfl rfl (.own rfl) hslots)
    | nil =>
      obtain ⟨⟨b, shared'⟩, hpop, heq⟩ := Option.map_eq_some_iff.1 hnext
      cases heq
      have hperm : shared.toList.Perm (a :: ([] ++ shared'.toList)) :=
        .of_eq (Fifo.toList_of_pop? hpop)
      exact solo_works (.obtain rfl rfl (.shared rfl hperm (.refl ([] ++ []))) hslots)

/-- When nothing is left, the worker looks everywhere, and leaves. -/
lemma leave_reaches (h : Heap μ) (roots totals : MarkTotals) (scanned : List ℕ)
    (hnext : pending.next? = none) :
    ∃ t, (pending.solo h roots totals scanned (.seeking {})).Reaches t
    ∧ t.Ended ∧ t.heap = h ∧ t.totals = roots.merge totals := by
  obtain ⟨segment, overflow, shared, marked⟩ := pending
  have hnone := Pending.toList_of_next?_none hnext
  obtain ⟨hown, hshared⟩ := List.append_eq_nil_iff.1 hnone
  obtain ⟨hsegment, hoverflow⟩ := List.append_eq_nil_iff.1 hown
  dsimp only at hsegment hoverflow hshared
  subst hsegment hoverflow
  refine ⟨_,
    (((solo_rests (.miss rfl rfl (.own rfl))).trans
      (solo_rests (.miss rfl rfl (.empty hshared)))).trans
    (solo_rests (.miss rfl rfl .missed))).trans (solo_rests (.leave rfl rfl rfl)), fun _ =>
      rfl, rfl, rfl⟩

/-- The worker scans objects until there are none, or it has scanned as many as it may. -/
theorem scanPending_reaches (fuel : ℕ) (pending : Pending) (roots totals : MarkTotals)
    (scanned : List ℕ) :
    Leads (fun _ => True) (scanPending fuel (pending, roots.merge totals)) h fun state h' => ∃ t,
      (pending.solo h roots totals scanned (.seeking {})).Reaches t ∧ t.heap = h'
        ∧ (t.Ended ∧ t.totals = state.2 ∨ t.scanned.length = scanned.length + fuel) := by
  induction fuel generalizing h pending totals scanned with
  | zero =>
    rw [scanPending, leads_pure]
    exact ⟨_, ⟨0, .refl _⟩, rfl, Or.inr rfl⟩
  | succ fuel ih =>
    rw [scanPending]
    cases hnext : pending.next? with
    | none =>
      obtain ⟨t, hreaches, hended, hheap, htotals⟩ := leave_reaches h roots totals scanned hnext
      rw [leads_pure]
      exact ⟨t, hreaches, hheap, Or.inl ⟨hended, htotals⟩⟩
    | some next =>
      obtain ⟨a, pending'⟩ := next
      dsimp only
      rw [leads_bind]
      refine (scanObject_reaches (a :: scanned)).mono fun state h₁ => ?_
      rintro ⟨totals₁, slots, hslots, htotals, hreaches⟩
      obtain ⟨pending₁, _⟩ := state
      cases htotals
      refine (ih pending₁ totals₁ (a :: scanned)).mono fun state h₂ => ?_
      rintro ⟨t, hreaches', hheap, hdone⟩
      refine ⟨t, ((next_reaches hnext hslots).trans hreaches).trans hreaches', hheap,
        hdone.imp_right fun hlength => ?_⟩
      rw [hlength, List.length_cons]
      omega

end Heap

end

end MarkCompact
