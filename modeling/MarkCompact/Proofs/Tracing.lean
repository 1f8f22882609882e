import Mathlib.Algebra.BigOperators.Pi
import Mathlib.Tactic.Abel
import MarkCompact.Proofs.Marking
import MarkCompact.Proofs.Teams

/-!
# What workers that mark keep

However the workers go on, every object that is marked can be reached, and it has been scanned or
waits with somebody, once; what a scanned object refers to is marked, or some worker has still to
visit the slot.

Main statements: `Traces.step` (one step of any worker) and `Traces.exists_step` (no worker is ever
stuck, whatever it is at).
-/

namespace MarkCompact

open MarkTeam

variable {zones : List Zone} {objects : List (List Span)} {roots : List ℕ} {objs objs' : List Span}
  {o : Span} {n : ℕ}

/-! ## Accounts -/

/-- Objects, how many were counted, and how many words were counted. -/
abbrev Account : Type :=
  Multiset ℕ × ℕ × ℕ

section

variable {μ σ : Type}

/-- What only a worker knows of, and what it has counted. -/
def Marker.account (m : Marker σ) : Account :=
  (m.aside, m.totals.objects, m.totals.words)

/-- What was scanned or is in the queues, and what was counted for the roots and by workers that
have finished. -/
def Workplace.account (p : Workplace μ) : Account :=
  ((p.scanned ++ p.queues.tasks : List ℕ), p.totals.objects, p.totals.words)

/-- What was scanned or waits, and what was counted. -/
def MarkTeam.account [ObjectModel μ] (t : MarkTeam μ n) : Account :=
  t.toWorkplace.account + ∑ w, (t.marker w).account

/-- The account of objects at some addresses. -/
def Extent.account (e : Extent) (objs : List Span) : Account :=
  ((objs.map fun o => e.addr o.start : List ℕ), objs.length, (objs.map Span.words).sum)

lemma coe_cons (a : ℕ) (as : List ℕ) :
    ((a :: as : List ℕ) : Multiset ℕ) = {a} + (as : Multiset ℕ) := rfl

/-- What a worker has aside, place by place. -/
lemma Marker.aside_eq (m : Marker σ) : m.aside = (m.doing.held : Multiset ℕ) + m.segment := by
  rw [aside, ← Multiset.coe_add]

/-- What is obtained from the queues has been in them. -/
lemma WorkQueues.Gets.coe_tasks {q q' : WorkQueues ℕ} {w a : ℕ} {s : Source}
    (h : q.Gets w s (some a) q') :
    (q.tasks : Multiset ℕ) = {a} + (q'.tasks : Multiset ℕ) :=
  (Multiset.coe_eq_coe.2 h.tasks_perm).symm

/-- An object that is marked is held and counted. -/
lemma Marker.account_mark {m : Marker σ} {a words : ℕ} {slots rest : List σ}
    (hm : m.doing = .visiting slots) :
    Marker.account { m with totals := m.totals.count words, doing := .holding a rest }
      = ({a}, 1, words) + m.account := by
  simp only [account, aside_eq, hm, Activity.held, MarkTotals.count, Prod.mk_add_mk,
    Multiset.coe_nil, Multiset.coe_singleton]
  refine congrArg₂ Prod.mk (by abel) (congrArg₂ Prod.mk (add_comm _ _) (add_comm _ _))

lemma Extent.account_cons (e : Extent) (o : Span) (objs : List Span) :
    e.account (o :: objs) = ({e.addr o.start}, 1, o.words) + e.account objs := by
  simp only [account, List.map_cons, List.length_cons, List.sum_cons, coe_cons, Prod.mk_add_mk,
    add_comm objs.length]

/-- A worker whose activity changes keeps its account, unless it puts an object aside. -/
lemma Marker.account_congr {m m' : Marker σ} (hheld : m'.doing.held = m.doing.held)
    (hsegment : m'.segment = m.segment) (htotals : m'.totals = m.totals) :
    m'.account = m.account := by
  rw [account, account, aside_eq, aside_eq, hheld, hsegment, htotals]

/-- A marked object is put aside. -/
lemma Marker.aside_put {m : Marker σ} {a : ℕ} {slots : List σ} (hm : m.doing = .holding a slots) :
    (m.put a slots).aside = m.aside ∧ (m.put a slots).totals = m.totals
      ∧ (m.put a slots).doing.slots = slots := by
  rw [put]
  split
  · split
    all_goals
      refine ⟨?_, rfl, rfl⟩
      simp only [aside_eq, hm, Activity.held, coe_cons, Multiset.coe_nil]
      abel
  · refine ⟨?_, rfl, rfl⟩
    simp only [aside_eq, hm, Activity.held, coe_cons, Multiset.coe_nil]
    abel

/-- Resting changes no account, and no slots are left to visit. -/
lemma Marker.Rests.account_add {w : ℕ} {p p' : Workplace μ} {m m' : Marker σ}
    (h : m.Rests w p p' m') :
    p'.account + m'.account = p.account + m.account ∧ m.doing.slots = [] ∧ m'.doing.slots = []
      ∧ p'.heap = p.heap ∧ p'.scanned = p.scanned := by
  cases h with
  | miss doing _ gets =>
    refine ⟨?_, by rw [doing]; rfl, rfl, rfl, rfl⟩
    simp only [account, Workplace.account, aside_eq, doing, Activity.held, gets.of_none.1]
  | offer doing | again doing =>
    refine ⟨?_, by rw [doing]; rfl, rfl, rfl, rfl⟩
    simp only [account, Workplace.account, aside_eq, doing, Activity.held]
  | leave doing | last doing | follow doing =>
    refine ⟨?_, by rw [doing]; rfl, rfl, rfl, rfl⟩
    simp only [account, Workplace.account, Workplace.collect, finish, MarkTotals.merge, aside_eq,
      doing, Activity.held, Prod.mk_add_mk, add_zero]

end

/-! ## Slots -/

/-- The references of a self-describing object are all its slots. -/
lemma MemoryImage.allSlots_eq (image : MemoryImage) (a : ℕ) :
    ObjectModel.allSlots image a = image.references a := by
  show (image.shapeAt a >>= _) >>= _ = image.shapeAt a >>= _
  cases image.shapeAt a <;> rfl

namespace Heap

variable {h h' : Heap MemoryImage}

/-- The slot belongs to an object that can be reached: it can be read, and what it refers to can be
reached too. -/
def Follows (h : Heap MemoryImage) (objects : List (List Span)) (roots : List ℕ)
    (slot : MemorySlot) : Prop :=
  ∃ a, (h.image.read slot).load = .ok a ∧ h.Points objects.flatten a
    ∧ ∀ o ∈ objects.flatten, a = h.covered.addr o.start → h.Reachable objects.flatten roots o

/-- What the slot refers to is marked. -/
def Traced (h : Heap MemoryImage) (objs : List Span) (slot : MemorySlot) : Prop :=
  ∀ a, (h.image.read slot).load = .ok a → h.Points objs a

lemma Points.mono {a : ℕ} (hp : h.Points objs a) (hsub : ∀ o ∈ objs, o ∈ objs') :
    h.Points objs' a := fun hin =>
  (hp hin).imp fun o ho => ⟨hsub o ho.1, ho.2⟩

lemma Traced.mono {slot : MemorySlot} (ht : h.Traced objs slot) (hsub : ∀ o ∈ objs, o ∈ objs') :
    h.Traced objs' slot :=
  fun a ha => (ht a ha).mono hsub

/-- The slots of an object that can be reached. -/
lemma WellFormed.follows (hw : h.WellFormed zones objects)
    (hr : h.Reachable objects.flatten roots o) :
    ∃ slots, h.image.references (h.covered.addr o.start) = .ok slots ∧ ∀ slot ∈ slots,
      h.Follows objects roots slot := by
  obtain ⟨slots, hrefs, hall⟩ := hw.readable o hr.mem
  refine ⟨slots, hrefs, fun slot hslot => ?_⟩
  obtain ⟨a, hload, hpoints⟩ := hall slot hslot
  exact ⟨a, hload, hpoints, fun o' ho' heq => .link hr ho' ⟨slots, hrefs, slot, hslot, heq ▸ hload⟩⟩

end Heap

/-! ## The invariant -/

/-- The heap of the workers is `h` with the objects `objs` marked; each of them was counted, and
scanned or waits; and what a scanned object refers to is marked, or the slot is still to be
visited. -/
structure MarkTeam.Traces (t : MarkTeam MemoryImage n) (h : Heap MemoryImage) (zones : List Zone)
    (objects : List (List Span)) (roots : List ℕ) (objs : List Span) : Prop where
  marked : h.MarkedTo t.heap zones objects roots objs
  account : t.account = h.covered.account objs
  follows : ∀ w, ∀ slot ∈ (t.marker w).doing.slots, h.Follows objects roots slot
  traced : ∀ a ∈ t.scanned, ∀ slots, h.image.references a = .ok slots → ∀ slot ∈ slots,
    h.Traced objs slot ∨ ∃ w, slot ∈ (t.marker w).doing.slots
  roots : ∀ a ∈ roots, h.Points objs a

namespace MarkTeam.Traces

variable {h : Heap MemoryImage} {t t' : MarkTeam MemoryImage n} {w : Fin n}
  {p : Workplace MemoryImage} {m : Marker MemorySlot} (ht : t.Traces h zones objects roots objs)
include ht

/-- A worker changes, and the workplace, and some more objects may be marked. -/
lemma act (hsub : ∀ o ∈ objs, o ∈ objs') (hm : h.MarkedTo p.heap zones objects roots objs')
    (haccount : p.account + m.account + h.covered.account objs
      = t.toWorkplace.account + (t.marker w).account + h.covered.account objs')
    (hfollows : ∀ slot ∈ m.doing.slots, h.Follows objects roots slot)
    (hleft : ∀ slot ∈ (t.marker w).doing.slots, slot ∈ m.doing.slots ∨ h.Traced objs' slot)
    (hscanned : ∀ a ∈ p.scanned, a ∈ t.scanned ∨ h.image.references a = .ok m.doing.slots) :
    (t.act w p m).Traces h zones objects roots objs' where
  marked := hm
  account := by
    have hsum := sum_act_add (t := t) (w := w) (p := p) (m := m) Marker.account
    have hold := ht.account
    rw [MarkTeam.account] at hold ⊢
    rw [act_toWorkplace]
    refine add_right_cancel (b := (t.marker w).account + h.covered.account objs) ?_
    calc p.account + ∑ v,
      ((t.act w p m).marker v).account + ((t.marker w).account + h.covered.account objs)
        = p.account + (∑ v,
          ((t.act w p m).marker v).account + (t.marker w).account) + h.covered.account objs := by
            abel
      _ = p.account + m.account + h.covered.account objs + ∑ v, (t.marker v).account := by
        rw [hsum]; abel
      _ = t.toWorkplace.account + ∑ v,
        (t.marker v).account + ((t.marker w).account + h.covered.account objs') := by
          rw [haccount]; abel
      _ = h.covered.account objs' + ((t.marker w).account + h.covered.account objs) := by
        rw [hold]; abel
  follows v := by
    rcases eq_or_ne v w with rfl | hne
    · rw [act_marker_self]
      exact hfollows
    · rw [act_marker_of_ne hne]
      exact ht.follows v
  traced a ha slots hrefs slot hslot := by
    rcases hscanned a ha with hin | hnew
    · rcases ht.traced a hin slots hrefs slot hslot with hdone | ⟨v, hv⟩
      · exact Or.inl (hdone.mono hsub)
      · rcases eq_or_ne v w with rfl | hne
        · exact (hleft slot hv).symm.imp_right fun hin => ⟨v, by rwa [act_marker_self]⟩
        · exact Or.inr ⟨v, by rwa [act_marker_of_ne hne]⟩
    · rw [hrefs, Except.ok.injEq] at hnew
      exact Or.inr ⟨w, by rwa [act_marker_self, ← hnew]⟩
  roots a ha := (ht.roots a ha).mono hsub

/-- Nothing is marked, and nothing else is scanned. -/
lemma keep (hheap : p.heap = t.heap) (hscanned : p.scanned = t.scanned)
    (haccount : p.account + m.account = t.toWorkplace.account + (t.marker w).account)
    (hslots : m.doing.slots = (t.marker w).doing.slots) :
    (t.act w p m).Traces h zones objects roots objs :=
  ht.act (fun _ => id) (hheap ▸ ht.marked) (by rw [haccount])
    (fun slot hslot => ht.follows w slot (hslots ▸ hslot))
    (fun slot hslot => Or.inl (hslots ▸ hslot)) fun a ha => Or.inl (hscanned ▸ ha)

/-- What is in the queues or aside is an object that can be reached. -/
lemma exists_object {a : ℕ} (ha : a ∈ t.queues.tasks ∨ ∃ w, a ∈ (t.marker w).aside) :
    ∃ o, h.Reachable objects.flatten roots o ∧ a = h.covered.addr o.start := by
  have hin : a ∈ t.account.1 := by
    rw [MarkTeam.account, Prod.fst_add, Prod.fst_sum, Multiset.mem_add]
    rcases ha with hqueued | ⟨w, haside⟩
    · exact Or.inl (List.mem_append_right _ hqueued)
    · exact Or.inr (Multiset.mem_sum.2 ⟨w, Finset.mem_univ w, haside⟩)
  rw [ht.account] at hin
  obtain ⟨o, ho, rfl⟩ := List.mem_map.1 (Multiset.mem_coe.1 hin)
  exact ⟨o, ht.marked.reachable o ho, rfl⟩

/-- The slots of an object that waits. -/
lemma follows_slots (hw : h.WellFormed zones objects) {a : ℕ}
    (ha : a ∈ t.queues.tasks ∨ ∃ w, a ∈ (t.marker w).aside) :
    ∃ slots, ObjectModel.allSlots t.heap.image a = .ok slots ∧ h.image.references a = .ok slots
      ∧ ∀ slot ∈ slots, h.Follows objects roots slot := by
  obtain ⟨o, hr, rfl⟩ := ht.exists_object ha
  obtain ⟨slots, hrefs, hall⟩ := hw.follows hr
  exact ⟨slots, by rw [MemoryImage.allSlots_eq, ht.marked.image_eq, hrefs], hrefs, hall⟩

/-- A worker that looks for an object begins to scan one that has waited. -/
lemma scan (hw : h.WellFormed zones objects) {seen : Seen} {a : ℕ} {q : WorkQueues ℕ}
    {segment : List ℕ} {slots : List MemorySlot}
    (hdoing : (t.marker w).doing = .seeking seen)
    (heq : ObjectModel.allSlots t.heap.image a = .ok slots)
    (hwaits : a ∈ t.queues.tasks ∨ ∃ w, a ∈ (t.marker w).aside)
    (hrest : (t.queues.tasks : Multiset ℕ) + ((t.marker w).segment : Multiset ℕ)
      = {a} + ((q.tasks : Multiset ℕ) + (segment : Multiset ℕ))) :
    (t.act w { t.toWorkplace with queues := q, scanned := a :: t.scanned }
      { t.marker w with segment, doing := .visiting slots }).Traces h zones objects roots objs := by
  obtain ⟨slots', hslots', hrefs, hall⟩ := ht.follows_slots hw hwaits
  rw [heq, Except.ok.injEq] at hslots'
  subst hslots'
  refine ht.act (fun _ => id) ht.marked ?_ hall (fun slot hslot => ?_) fun b hb => ?_
  · congr 1
    simp only [Marker.account, Workplace.account, Marker.aside_eq, hdoing, Activity.held,
      Prod.mk_add_mk]
    refine congrArg₂ Prod.mk ?_ rfl
    simp only [← Multiset.coe_add, coe_cons, Multiset.coe_nil, zero_add]
    rw [add_assoc (t.scanned : Multiset ℕ), hrest]
    abel
  · rw [hdoing] at hslot
    exact absurd hslot List.not_mem_nil
  · rcases List.mem_cons.1 hb with rfl | hin
    · exact Or.inr hrefs
    · exact Or.inl hin

/-- What a worker comes by when it visits a slot. -/
lemma visit (hw : h.WellFormed zones objects) {slot : MemorySlot} {rest : List MemorySlot}
    (hdoing : (t.marker w).doing = .visiting (slot :: rest)) :
    ∃ a, (ObjectModel.read t.heap.image slot).load = .ok a
      ∧ Heap.Runs (Heap.markObject a) t.heap fun out h' =>
        (out = none ∧ h' = t.heap ∧ h.Traced objs slot)
        ∨ ∃ o, a = h.covered.addr o.start ∧ out = some o.words
          ∧ h.MarkedTo h' zones objects roots (o :: objs)
          ∧ h.Traced (o :: objs) slot := by
  obtain ⟨a, hload, hpoints, hreach⟩ := ht.follows w slot (by rw [hdoing]; exact List.mem_cons_self)
  have htraced : ∀ {os}, h.Points os a → h.Traced os slot := fun hp b hb => by
    rw [hload, Except.ok.injEq] at hb
    exact hb ▸ hp
  refine ⟨a, by rw [ht.marked.image_eq]; exact hload,
    (ht.marked.markObject_runs hw hpoints hreach).mono fun out h' => ?_⟩
  rintro (⟨rfl, rfl, hmarked⟩ | ⟨o, rfl, rfl, hm⟩)
  · exact Or.inl ⟨rfl, rfl, htraced hmarked⟩
  · exact Or.inr ⟨o, rfl, rfl, hm, htraced fun _ => ⟨o, List.mem_cons_self, rfl⟩⟩

/-- A worker works. -/
lemma works (hw : h.WellFormed zones objects) (hworks : (t.marker w).Works w t.toWorkplace p m) :
    ∃ objs', (t.act w p m).Traces h zones objects roots objs' := by
  cases hworks with
  | @take seen a rest slots doing segment eq =>
    refine ⟨objs, ht.scan hw doing eq (Or.inr ⟨w, ?_⟩) ?_⟩
    · rw [Marker.aside, segment]
      exact List.mem_append_right _ List.mem_cons_self
    · rw [segment, coe_cons]
      abel
  | @obtain seen s a q slots doing segment gets eq =>
    refine ⟨objs, ht.scan hw doing eq (Or.inl (gets.tasks_perm.subset List.mem_cons_self)) ?_⟩
    rw [gets.coe_tasks]
    abel
  | @skip slot rest a h' doing load old =>
    obtain ⟨b, hload, hruns⟩ := ht.visit hw doing
    rw [load, Except.ok.injEq] at hload
    subst hload
    rcases hruns.of_eq old with ⟨-, rfl, htraced⟩ | ⟨o, -, hout, -, -⟩
    · have haccount : Marker.account { t.marker w with doing := .visiting rest }
          = (t.marker w).account :=
        Marker.account_congr (by rw [doing]; rfl) rfl rfl
      refine ⟨objs, ht.act (fun _ => id) ht.marked (by rw [haccount])
        (fun s hs => ht.follows w s ?_) (fun s hs => ?_)
        fun _ => Or.inl⟩
      · rw [doing]
        exact List.mem_cons_of_mem _ hs
      · rw [doing] at hs
        rcases List.mem_cons.1 hs with rfl | hin
        · exact Or.inr htraced
        · exact Or.inl hin
    · cases hout
  | @mark slot rest a words h' doing load new =>
    obtain ⟨b, hload, hruns⟩ := ht.visit hw doing
    rw [load, Except.ok.injEq] at hload
    subst hload
    rcases hruns.of_eq new with ⟨hout, -, -⟩ | ⟨o, rfl, hout, hm, htraced⟩
    · cases hout
    · cases hout
      refine ⟨o :: objs, ht.act (fun _ => List.mem_cons_of_mem _) hm ?_
        (fun s hs => ht.follows w s ?_) (fun s hs => ?_)
        fun _ => Or.inl⟩
      · rw [Marker.account_mark doing, Extent.account_cons]
        show t.toWorkplace.account + _ + _ = _
        abel
      · rw [doing]
        exact List.mem_cons_of_mem _ hs
      · rw [doing] at hs
        rcases List.mem_cons.1 hs with rfl | hin
        · exact Or.inr htraced
        · exact Or.inl hin
  | put doing =>
    obtain ⟨haside, htotals, hslots⟩ := Marker.aside_put doing
    refine ⟨objs, ht.keep rfl rfl ?_ (by rw [hslots, doing]; rfl)⟩
    rw [Marker.account, haside, htotals]
    rfl
  | @push a slots q doing full eq =>
    have hpushed : (q.tasks : Multiset ℕ) = {a} + (t.queues.tasks : Multiset ℕ) :=
      Multiset.coe_eq_coe.2 (WorkQueues.tasks_push eq)
    refine ⟨objs, ht.keep rfl rfl ?_ (by rw [doing]; rfl)⟩
    simp only [Marker.account, Workplace.account, Marker.aside_eq, doing, Activity.held,
      Prod.mk_add_mk]
    refine congrArg₂ Prod.mk ?_ rfl
    simp only [coe_cons, ← Multiset.coe_add, Multiset.coe_nil, hpushed]
    abel
  | @share a target rest slots doing segment more =>
    have hpushed : ((t.queues.pushShared a).tasks : Multiset ℕ)
        = {a} + (t.queues.tasks : Multiset ℕ) :=
      Multiset.coe_eq_coe.2 (WorkQueues.tasks_pushShared _ a)
    refine ⟨objs, ht.keep rfl rfl ?_ rfl⟩
    simp only [Marker.account, Workplace.account, Marker.aside_eq, segment, Prod.mk_add_mk]
    refine congrArg₂ Prod.mk ?_ rfl
    simp only [coe_cons, ← Multiset.coe_add, hpushed]
    abel
  | @shared target slots doing enough =>
    refine ⟨objs, ht.keep rfl rfl (congrArg _ ?_) (by rw [doing]; rfl)⟩
    exact Marker.account_congr (by rw [doing]; rfl) rfl rfl
  | visited doing =>
    refine ⟨objs, ht.keep rfl rfl (congrArg _ ?_) (by rw [doing]; rfl)⟩
    exact Marker.account_congr (by rw [doing]; rfl) rfl rfl

/-- Whatever step a worker takes, the invariant is kept. -/
theorem step (hw : h.WellFormed zones objects) {work : Bool} (hstep : t.Step w work t') :
    ∃ objs', t'.Traces h zones objects roots objs' := by
  cases hstep with
  | work works => exact ht.works hw works
  | rest rests =>
    obtain ⟨haccount, hold, hnew, hheap, hscanned⟩ := rests.account_add
    exact ⟨objs, ht.keep hheap hscanned haccount (by rw [hold, hnew])⟩

/-- A worker can look for an object anywhere, and begins to scan one or gets none. -/
lemma exists_step_of_seeking (hw : h.WellFormed zones objects) (hb : t.Watched) {seen : Seen}
    (hdoing : (t.marker w).doing = .seeking seen)
    (hsegment : (t.marker w).segment = []) (s : Source) : ∃ work t', t.Step w work t' := by
  obtain ⟨x, q, hgets⟩ := t.queues.exists_gets (w.isLt.trans_eq hb.stacks_length.symm) s
  cases x with
  | none => exact ⟨false, _, .rest (.miss hdoing hsegment hgets)⟩
  | some a =>
    obtain ⟨slots, hslots, _⟩ :=
      ht.follows_slots hw (Or.inl (hgets.tasks_perm.subset List.mem_cons_self))
    exact ⟨true, _, .work (.obtain hdoing hsegment hgets hslots)⟩

/-- No worker that has not finished is ever stuck. -/
theorem exists_step (hw : h.WellFormed zones objects) (hb : t.Watched) (hlt : n < wordValues)
    (hnot : (t.marker w).doing ≠ .finished) : ∃ work t', t.Step w work t' := by
  cases hdoing : (t.marker w).doing with
  | seeking seen =>
    cases hsegment : (t.marker w).segment with
    | cons a rest =>
      obtain ⟨slots, hslots, _⟩ := ht.follows_slots hw (a := a) (Or.inr ⟨w, by
        rw [Marker.aside, hsegment]
        exact List.mem_append_right _ List.mem_cons_self⟩)
      exact ⟨true, _, .work (.take hdoing hsegment hslots)⟩
    | nil => exact ht.exists_step_of_seeking hw hb hdoing hsegment .own
  | visiting slots =>
    cases slots with
    | nil => exact ⟨true, _, .work (.visited hdoing)⟩
    | cons slot rest =>
      obtain ⟨a, hload, out, h', heq, hpost⟩ := ht.visit hw hdoing
      rcases hpost with ⟨rfl, -, -⟩ | ⟨o, -, rfl, -, -⟩
      · exact ⟨true, _, .work (.skip hdoing hload heq)⟩
      · exact ⟨true, _, .work (.mark hdoing hload heq)⟩
  | holding a slots =>
    rcases Nat.lt_or_ge (t.marker w).segment.length segmentSize with hroom | hfull
    · exact ⟨true, _, .work (.put hdoing hroom)⟩
    · obtain ⟨q, heq⟩ := t.queues.push_eq_ok (w.isLt.trans_eq hb.stacks_length.symm) a
      exact ⟨true, _, .work (.push hdoing hfull heq)⟩
  | sharing target slots =>
    rcases Nat.lt_or_ge target (t.marker w).segment.length with hmore | henough
    · obtain ⟨a, rest, hsegment⟩ := List.exists_cons_of_length_pos (Nat.zero_lt_of_lt hmore)
      exact ⟨true, _, .work (.share hdoing hsegment hmore)⟩
    · exact ⟨true, _, .work (.shared hdoing henough)⟩
  | offered =>
    obtain ⟨ended, t', heq⟩ := hb.reconsider_eq_ok hlt hdoing
    cases ended with
    | false => exact ⟨false, _, .rest (.again hdoing heq)⟩
    | true => exact ⟨false, _, .rest (.follow hdoing heq)⟩
  | finished => exact absurd hdoing hnot

end MarkTeam.Traces

end MarkCompact
