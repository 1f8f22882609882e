import MarkCompact.Marking
import MarkCompact.Proofs.ObjectGraph

/-!
# Marking finds the reachable objects

Marking keeps a list of objects that are marked and not scanned yet.  Whatever the order in which
they are scanned, every marked object can be reached, and what a scanned object refers to is marked;
when none is left, the marked objects are those that can be reached.

Main statement: `WellFormed.markLive_runs`.
-/

namespace MarkCompact

variable {zones : List Zone} {objects : List (List Span)} {roots : List ℕ}
  {objs scanned : List Span} {o : Span} {a : ℕ}

/-! ## Objects that wait to be scanned -/

namespace Pending

variable {p p' : Pending}

lemma toList_addRoot (p : Pending) (a : ℕ) : (p.addRoot a).toList.Perm (a :: p.toList) := by
  simp only [addRoot, toList, Fifo.toList_push, ← List.append_assoc]
  exact List.perm_append_singleton _ _

/-- Sharing moves objects and loses none. -/
lemma share_perm (target : ℕ) (segment : List ℕ) (shared : Fifo ℕ) :
    ((share target segment shared).1 ++ (share target segment shared).2.toList).Perm
      (segment ++ shared.toList) := by
  induction segment generalizing shared with
  | nil => exact .refl _
  | cons a rest ih =>
    rw [share]
    split
    · refine (ih (shared.push a)).trans ?_
      rw [Fifo.toList_push, ← List.append_assoc]
      exact List.perm_append_singleton _ _
    · exact .refl _

lemma toList_add (p : Pending) (a : ℕ) : (p.add a).toList.Perm (a :: p.toList) := by
  rw [add]
  split
  · dsimp only
    split
    · split
      · have hperm := share_perm ((a :: p.segment).length / 2) (a :: p.segment) p.shared
        simp only [toList, List.append_assoc]
        refine (List.perm_append_comm_assoc _ _ _).trans ((hperm.append_left p.overflow).trans ?_)
        exact (List.perm_append_comm_assoc _ _ _)
      · exact .refl _
    · exact .refl _
  · simp only [toList, List.append_assoc, List.cons_append]
    exact List.perm_middle

lemma toList_of_next? (h : p.next? = some (a, p')) : p.toList = a :: p'.toList := by
  rw [next?] at h
  split at h
  case h_1 first rest hsegment =>
    cases h
    rw [toList, hsegment]
    rfl
  case h_2 hsegment =>
    split at h
    case h_1 first rest hoverflow =>
      cases h
      rw [toList, toList, hsegment, hoverflow]
      rfl
    case h_2 hoverflow =>
      obtain ⟨⟨first, shared⟩, hpop, heq⟩ := Option.map_eq_some_iff.1 h
      cases heq
      rw [toList, toList, hsegment, hoverflow]
      exact Fifo.toList_of_pop? hpop

lemma toList_of_next?_none (h : p.next? = none) : p.toList = [] := by
  rw [next?] at h
  split at h
  case h_1 => cases h
  case h_2 hsegment =>
    split at h
    case h_1 => cases h
    case h_2 hoverflow =>
      rw [toList, hsegment, hoverflow]
      exact (Fifo.pop?_eq_none_iff _).1 (Option.map_eq_none_iff.1 h)

lemma queuesEmpty_of_toList (h : p.toList = []) : p.queuesEmpty = true := by
  simp only [toList, List.append_eq_nil_iff] at h
  rw [queuesEmpty, h.1.2, h.2]
  rfl

end Pending

namespace Heap

variable {h h' : Heap MemoryImage} {state : Pending × MarkTotals}

/-! ## Marking one object -/

/-- The heap `h'` is `h` with the objects `objs` marked, which can be reached. -/
structure MarkedTo (h h' : Heap MemoryImage) (zones : List Zone) (objects : List (List Span))
    (roots : List ℕ) (objs : List Span) : Prop where
  bitmap : ∃ bitmap, h' = { h with bitmap }
  marked : h'.Unplanned objs zones
  reachable : ∀ o ∈ objs, h.Reachable objects.flatten roots o

namespace MarkedTo

variable (hm : h.MarkedTo h' zones objects roots objs)
include hm

lemma image_eq : h'.image = h.image := by
  obtain ⟨_, rfl⟩ := hm.bitmap
  rfl

lemma isInSpace_eq (a : ℕ) : h'.isInSpace a = h.isInSpace a := by
  obtain ⟨_, rfl⟩ := hm.bitmap
  rfl

lemma covered_eq : h'.covered = h.covered := by
  obtain ⟨_, rfl⟩ := hm.bitmap
  rfl

/-- The order of the objects does not matter. -/
lemma perm {os : List Span} (hperm : objs.Perm os) : h.MarkedTo h' zones objects roots os where
  bitmap := hm.bitmap
  marked := hm.marked.perm hperm
  reachable o ho := hm.reachable o (hperm.mem_iff.2 ho)

/-- What is reported does not matter. -/
lemma withLog (log : List LogRecord) :
    Heap.MarkedTo { h with log } { h' with log } zones objects roots objs := by
  obtain ⟨⟨bitmap, rfl⟩, hmarked, hreachable⟩ := hm
  have hsame : ∀ o, ({ h with log } : Heap MemoryImage).Reachable objects.flatten roots o
      ↔ h.Reachable objects.flatten roots o :=
    fun o => reachable_congr rfl rfl
  exact ⟨⟨bitmap, rfl⟩, { hmarked with consistent := hmarked.consistent.withLog log },
    fun o ho => (hsame o).2 (hreachable o ho)⟩

/-- Marking one more object. -/
lemma mark (hw : h.WellFormed zones objects) (hr : h.Reachable objects.flatten roots o)
    (hnot : o ∉ objs) :
    ∃ bitmap, h'.bitmap.mark (h.covered.addr o.start) o.words = .ok (true, bitmap)
      ∧ h.MarkedTo { h' with bitmap } zones objects roots (o :: objs) := by
  have hc := hm.marked.consistent
  have hsep : Separate (o :: objs) :=
    hc.marks.separate.cons (hw.separate.words_pos o hr.mem) fun o' ho' =>
    (hw.separate.eq_or_apart hr.mem (hm.reachable o' ho').mem).resolve_left fun heq =>
      hnot (heq ▸ ho')
  have hcovered : h'.bitmap.covered = h.covered := by
    rw [hc.bitmap_covered, ← hc.covered, hm.covered_eq]
  have hwords : h.covered.words < wordValues := lt_trans hw.words_lt (by decide)
  obtain ⟨m, heq, hmarks, hsame⟩ :=
    hc.marks.mark_eq hsep (hcovered ▸ hw.past_le hr.mem) (hcovered ▸ hwords)
  rw [hcovered] at heq
  obtain ⟨_, hbitmap⟩ := hm.bitmap
  refine ⟨m, heq, ⟨m, by rw [hbitmap]⟩, ?_, fun o' ho' => ?_⟩
  · exact
      { hm.marked with
        consistent := ⟨hc.laid, hmarks, hsame.trans hc.bitmap_covered, hc.covered, hc.geometry⟩
        holds := fun o' ho' => by
          rcases List.mem_cons.1 ho' with rfl | hin
          · obtain ⟨z, hz, hholds⟩ := hw.exists_zone hr.mem
            refine ⟨z, hz, ?_⟩
            rw [hbitmap]
            exact hholds
          · exact hm.marked.holds o' hin }
  · rcases List.mem_cons.1 ho' with rfl | hin
    · exact hr
    · exact hm.reachable o' hin

/-- The object at an address is marked, if there is one and it was not. -/
theorem markObject_runs (hw : h.WellFormed zones objects) (hpoints : h.Points objects.flatten a)
    (hreach : ∀ o ∈ objects.flatten, a = h.covered.addr o.start →
      h.Reachable objects.flatten roots o) :
    Runs (markObject a) h' fun out h'' =>
      (out = none ∧ h'' = h' ∧ (h.isInSpace a = true → ∃ o ∈ objs, a = h.covered.addr o.start))
      ∨ ∃ o, a = h.covered.addr o.start ∧ out = some o.words ∧ h.MarkedTo h'' zones objects roots
        (o :: objs) := by
  have hbase := hw.base_le
  rw [markObject, runs_bind, runs_get, hm.isInSpace_eq]
  by_cases hin : h.isInSpace a = true
  case neg =>
    rw [if_pos (Or.inr hin), runs_pure]
    exact Or.inl ⟨rfl, rfl, fun h => absurd h hin⟩
  case pos =>
    obtain ⟨o, ho, rfl⟩ := hpoints hin
    have hne : ¬(h.covered.addr o.start = 0 ∨ ¬h.isInSpace (h.covered.addr o.start) = true) := by
      rw [Extent.addr_eq]
      simp only [bytesPerWord] at hbase
      rintro (h0 | hout)
      · omega
      · exact hout hin
    have hwords : ObjectModel.objectWords h'.image (h.covered.addr o.start) = o.words :=
      hm.image_eq ▸ hw.sized o ho
    rw [if_neg hne, hwords]
    dsimp only
    by_cases hold : o ∈ objs
    · have hmarked := hm.marked.consistent.marks.mark_marked hold (hw.separate.words_pos o ho)
      rw [hm.marked.consistent.bitmap_covered, ← hm.marked.consistent.covered,
        hm.covered_eq] at hmarked
      rw [hmarked, runs_bind, runs_check_ok, runs_bind, runs_set,
        if_neg Bool.false_ne_true, runs_pure]
      exact Or.inl ⟨rfl, rfl, fun _ => ⟨o, hold, rfl⟩⟩
    · obtain ⟨m, hmark, hmarked⟩ := hm.mark hw (hreach o ho rfl) hold
      rw [hmark, runs_bind, runs_check_ok, runs_bind, runs_set, if_pos rfl, runs_pure]
      exact Or.inr ⟨o, rfl, rfl, hmarked⟩

/-- If what the roots and the marked objects refer to is marked, exactly the objects that can be
reached are. -/
lemma mem_iff (hw : h.WellFormed zones objects) (hroots : ∀ a ∈ roots, h.Points objs a)
    (hclosed : ∀ o ∈ objs, ∀ a, h.image.Loads (h.covered.addr o.start) a → h.Points objs a)
    (o : Span) :
    o ∈ objs ↔ h.Reachable objects.flatten roots o := by
  refine ⟨hm.reachable o, fun hr => ?_⟩
  have hall : ∀ o ∈ objs, o ∈ objects.flatten := fun o ho => (hm.reachable o ho).mem
  induction hr with
  | root hin hheld => exact hw.mem_of_points hall hin (hroots _ hheld)
  | link _ hin hloads ih => exact hw.mem_of_points hall hin (hclosed _ ih _ hloads)

end MarkedTo

/-! ## Marking and waiting -/

/-- The marked objects are those that have been scanned and those that wait. -/
structure Found (h h' : Heap MemoryImage) (zones : List Zone) (objects : List (List Span))
    (roots : List ℕ) (objs scanned : List Span) (state : Pending × MarkTotals) :
    Prop extends h.MarkedTo h' zones objects roots objs where
  waiting : ((scanned.map fun o => h.covered.addr o.start) ++ state.1.toList).Perm
    (objs.map fun o => h.covered.addr o.start)
  totals : state.2 = ⟨objs.length, (objs.map Span.words).sum⟩

/-- An object has been marked and waits. -/
lemma Found.add {h'' : Heap MemoryImage} {pending' : Pending}
    (hf : h.Found h' zones objects roots objs scanned state)
    (hm : h.MarkedTo h'' zones objects roots (o :: objs))
    (hperm : pending'.toList.Perm (h.covered.addr o.start :: state.1.toList)) :
    h.Found h'' zones objects roots (o :: objs) scanned (pending', state.2.count o.words) := by
  refine ⟨hm, ?_, ?_⟩
  · exact (hperm.append_left _).trans (List.perm_middle.trans (hf.waiting.cons _))
  · rw [hf.totals, MarkTotals.count, List.map_cons, List.sum_cons, List.length_cons,
      Nat.add_comm o.words]

variable (hw : h.WellFormed zones objects)
include hw

/-- The roots are marked. -/
theorem markRoots_runs {rest : List ℕ} (hf : h.Found h' zones objects roots objs scanned state)
    (hrest : ∀ a ∈ rest, a ∈ roots) (hpoints : ∀ a ∈ roots, h.Points objects.flatten a) :
    Runs (markRoots rest state) h' fun state' h'' =>
      ∃ objs', h.Found h'' zones objects roots objs' scanned state'
      ∧ (∀ o ∈ objs, o ∈ objs') ∧ ∀ a ∈ rest, h.Points objs' a := by
  induction rest generalizing h' objs state with
  | nil =>
    rw [markRoots, runs_pure]
    exact ⟨objs, hf, fun _ => id, fun _ ha => absurd ha List.not_mem_nil⟩
  | cons a rest ih =>
    have ha := hrest a List.mem_cons_self
    obtain ⟨pending, totals⟩ := state
    rw [markRoots, runs_bind]
    refine (hf.toMarkedTo.markObject_runs hw (hpoints a ha)
      fun o ho heq => .root ho (heq ▸ ha)).mono fun out h'' => ?_
    rintro (⟨rfl, rfl, hmarked⟩ | ⟨o, rfl, rfl, hm⟩)
    · refine (ih hf fun a' ha' => hrest a' (List.mem_cons_of_mem _ ha')).mono fun state' h₃ => ?_
      rintro ⟨objs', hf', hsub, hall⟩
      exact ⟨objs', hf', hsub,
        List.forall_mem_cons.2 ⟨fun hin => (hmarked hin).imp fun o ho => ⟨hsub o ho.1, ho.2⟩, hall⟩⟩
    · refine (ih (hf.add hm (pending.toList_addRoot _))
        fun a' ha' => hrest a' (List.mem_cons_of_mem _ ha')).mono
        fun state' h₃ => ?_
      rintro ⟨objs', hf', hsub, hall⟩
      exact ⟨objs', hf', fun o' ho' => hsub o' (List.mem_cons_of_mem _ ho'),
        List.forall_mem_cons.2 ⟨fun _ => ⟨o, hsub o List.mem_cons_self, rfl⟩, hall⟩⟩

/-- What the slots of a reachable object refer to is marked. -/
lemma visitSlots_runs {slots : List MemorySlot}
    (hf : h.Found h' zones objects roots objs scanned state)
    (hslots : ∀ slot ∈ slots, ∃ a, (h.image.read slot).load = .ok a ∧ h.Points objects.flatten a
      ∧ ∀ o ∈ objects.flatten, a = h.covered.addr o.start → h.Reachable objects.flatten roots o) :
    Runs (visitSlots slots state) h' fun state' h'' =>
      ∃ objs', h.Found h'' zones objects roots objs' scanned state'
      ∧ (∀ o ∈ objs, o ∈ objs') ∧ ∀ slot ∈ slots, ∀ a, (h.image.read slot).load = .ok a →
        h.Points objs' a := by
  induction slots generalizing h' objs state with
  | nil =>
    rw [visitSlots, runs_pure]
    exact ⟨objs, hf, fun _ => id, fun _ hslot => absurd hslot List.not_mem_nil⟩
  | cons slot rest ih =>
    obtain ⟨a, hload, hpoints, hreach⟩ := hslots slot List.mem_cons_self
    have hone : ∀ objs', h.Points objs' a → ∀ a', (h.image.read slot).load = .ok a' →
        h.Points objs' a' :=
      fun objs' hp a' ha' => by
      rw [hload, Except.ok.injEq] at ha'
      exact ha' ▸ hp
    have hread : (ObjectModel.read h'.image slot).load = .ok a := hf.image_eq ▸ hload
    obtain ⟨pending, totals⟩ := state
    rw [visitSlots, runs_bind, runs_get, runs_bind, hread, runs_check_ok, runs_bind]
    refine (hf.toMarkedTo.markObject_runs hw hpoints hreach).mono fun out h'' => ?_
    rintro (⟨rfl, rfl, hmarked⟩ | ⟨o, rfl, rfl, hm⟩)
    · refine (ih hf fun slot' hslot' => hslots slot' (List.mem_cons_of_mem _ hslot')).mono
        fun state' h₃ => ?_
      rintro ⟨objs', hf', hsub, hall⟩
      exact ⟨objs', hf', hsub, List.forall_mem_cons.2
        ⟨hone objs' fun hin => (hmarked hin).imp fun o ho => ⟨hsub o ho.1, ho.2⟩, hall⟩⟩
    · refine (ih (hf.add hm (pending.toList_add _))
        fun slot' hslot' => hslots slot' (List.mem_cons_of_mem _ hslot')).mono
        fun state' h₃ => ?_
      rintro ⟨objs', hf', hsub, hall⟩
      exact ⟨objs', hf', fun o' ho' => hsub o' (List.mem_cons_of_mem _ ho'),
        List.forall_mem_cons.2 ⟨hone objs' fun _ => ⟨o, hsub o List.mem_cons_self, rfl⟩, hall⟩⟩

/-- What a reachable object refers to is marked. -/
lemma scanObject_runs (hf : h.Found h' zones objects roots objs scanned state)
    (hr : h.Reachable objects.flatten roots o) :
    Runs (scanObject (h.covered.addr o.start) state) h' fun state' h'' =>
      ∃ objs', h.Found h'' zones objects roots objs' scanned state' ∧ (∀ o ∈ objs, o ∈ objs')
        ∧ ∀ a, h.image.Loads (h.covered.addr o.start) a → h.Points objs' a := by
  obtain ⟨slots, hrefs, hall⟩ := hw.readable o hr.mem
  obtain ⟨s, hs, heq⟩ := bind_eq_ok_iff.1 hrefs
  obtain rfl := pure_eq_ok_iff.1 heq
  have hslots : ObjectModel.slots h'.image (h.covered.addr o.start)
      = .ok (MemoryImage.slotsOf s (h.covered.addr o.start)) := by
    rw [hf.image_eq]
    show (h.image.shapeAt _ >>= _) = _
    rw [hs]
    rfl
  have hmetadata : ObjectModel.metadataSlot h'.image (h.covered.addr o.start)
      = h.image.metadataSlot? (h.covered.addr o.start) := by
    rw [hf.image_eq]
    rfl
  have hone : ∀ slot ∈ MemoryImage.slotsOf s (h.covered.addr o.start)
        ++ (h.image.metadataSlot? (h.covered.addr o.start)).toList,
      ∃ a, (h.image.read slot).load = .ok a ∧ h.Points objects.flatten a
        ∧ ∀ o' ∈ objects.flatten, a = h.covered.addr o'.start →
          h.Reachable objects.flatten roots o' := fun slot hslot => by
    obtain ⟨a, hload, hpoints⟩ := hall slot hslot
    exact ⟨a, hload, hpoints, fun o' ho' heq => .link hr ho' ⟨_, hrefs, slot, hslot, heq ▸ hload⟩⟩
  rw [scanObject, runs_bind, runs_get, runs_bind, hslots, runs_check_ok, runs_bind, hmetadata]
  refine (visitSlots_runs hw hf fun slot hslot => hone slot (List.mem_append_left _ hslot)).mono
    fun state₁ h₁ => ?_
  rintro ⟨objs₁, hf₁, hsub₁, hall₁⟩
  refine (visitSlots_runs hw hf₁ fun slot hslot => hone slot (List.mem_append_right _ hslot)).mono
    fun state₂ h₂ => ?_
  rintro ⟨objs₂, hf₂, hsub₂, hall₂⟩
  refine ⟨objs₂, hf₂, fun o' ho' => hsub₂ o' (hsub₁ o' ho'), ?_⟩
  rintro a ⟨slots', heq', slot, hslot, hload⟩
  rw [hrefs, Except.ok.injEq] at heq'
  rcases List.mem_append.1 (heq' ▸ hslot) with hin | hin
  · exact fun hspace => (hall₁ slot hin a hload hspace).imp fun o' ho' => ⟨hsub₂ o' ho'.1, ho'.2⟩
  · exact hall₂ slot hin a hload

/-! ## Until no object waits -/

/-- Objects are scanned until none waits, and each of them once. -/
theorem scanPending_runs {fuel : ℕ} (hf : h.Found h' zones objects roots objs scanned state)
    (hsub : ∀ o ∈ scanned, o ∈ objs)
    (hclosed : ∀ o ∈ scanned, ∀ a, h.image.Loads (h.covered.addr o.start) a → h.Points objs a)
    (hfuel : objects.flatten.length < fuel + scanned.length) :
    Runs (scanPending fuel state) h' fun state' h'' => state'.1.toList = []
      ∧ ∃ objs', h.MarkedTo h'' zones objects roots objs'
        ∧ state'.2 = ⟨objs'.length, (objs'.map Span.words).sum⟩ ∧ (∀ o ∈ objs, o ∈ objs')
        ∧ ∀ o ∈ objs', ∀ a, h.image.Loads (h.covered.addr o.start) a → h.Points objs' a := by
  induction fuel generalizing h' objs scanned state with
  | zero =>
    -- More objects would have been scanned than there are.
    have hlength := hf.waiting.length_eq
    rw [List.length_append, List.length_map, List.length_map] at hlength
    have hle :=
      (List.subperm_of_subset hf.marked.consistent.marks.separate.nodup
        fun o ho => (hf.reachable o ho).mem).length_le
    omega
  | succ fuel ih =>
    obtain ⟨pending, totals⟩ := state
    rw [scanPending]
    cases hnext : pending.next? with
    | none =>
      have hwaiting := hf.waiting
      have hnone := Pending.toList_of_next?_none hnext
      rw [hnone, List.append_nil] at hwaiting
      refine runs_pure.2 ⟨hnone, objs, hf.toMarkedTo, hf.totals, fun _ => id, fun o ho => ?_⟩
      obtain ⟨o', ho', heq⟩ := List.mem_map.1 (hwaiting.mem_iff.2 (List.mem_map_of_mem ho))
      have hstart :=
        hw.separate.eq_of_start (hf.reachable o' (hsub o' ho')).mem (hf.reachable o ho).mem
          (Extent.addr_inj.1 heq)
      exact hclosed o (hstart ▸ ho')
    | some next =>
      obtain ⟨addr, pending'⟩ := next
      have hwaiting := hf.waiting
      rw [Pending.toList_of_next? hnext] at hwaiting
      obtain ⟨o, ho, rfl⟩ :=
        List.mem_map.1 (hwaiting.subset (List.mem_append_right _ List.mem_cons_self))
      have hf' : h.Found h' zones objects roots objs (o :: scanned) (pending', totals) :=
        ⟨hf.toMarkedTo, List.perm_middle.symm.trans hwaiting, hf.totals⟩
      dsimp only
      rw [runs_bind]
      refine (scanObject_runs hw hf' (hf.reachable o ho)).mono fun state₂ h₂ => ?_
      rintro ⟨objs₂, hf₂, hsub₂, hall₂⟩
      refine (ih hf₂ (List.forall_mem_cons.2 ⟨hsub₂ o ho, fun o' ho' => hsub₂ o' (hsub o' ho')⟩)
        (List.forall_mem_cons.2 ⟨hall₂, fun o' ho' a ha hspace => ?_⟩)
          (by rw [List.length_cons]; omega)).mono fun out h₃ => ?_
      · exact (hclosed o' ho' a ha hspace).imp fun o₂ ho₂ => ⟨hsub₂ o₂ ho₂.1, ho₂.2⟩
      · rintro ⟨hnone, objs₃, hm₃, htotals, hsub₃, hclosed₃⟩
        exact ⟨hnone, objs₃, hm₃, htotals, fun o' ho' => hsub₃ o' (hsub₂ o' ho'), hclosed₃⟩

omit hw in
/-- What marking comes to if both of its parts succeed. -/
lemma markLive_of_scanned {μ : Type} [ObjectModel μ] {h h₁ h₂ : Heap μ}
    {state₁ state₂ : Pending × MarkTotals} (hmarked : markRoots roots ({}, {}) h = .ok (state₁, h₁))
    (hscanned : scanPending (h.bitmap.size + 1) state₁ h₁ = .ok (state₂, h₂))
    (hnone : state₂.1.toList = []) : markLive roots h = .ok (state₂.2, h₂) := by
  show (markRoots roots ({}, {}) h >>= fun out =>
    scanPending (h.bitmap.size + 1) out.1 out.2 >>= _) = _
  rw [hmarked, ok_bind, hscanned, ok_bind]
  dsimp only
  rw [Pending.queuesEmpty_of_toList hnone]
  rfl

/-- Exactly the objects that can be reached from the roots are marked. -/
theorem markLive_runs (hm : h.Unplanned [] zones)
    (hpoints : ∀ a ∈ roots, h.Points objects.flatten a) :
    Runs (markLive roots) h fun totals h' => ∃ objs, h.MarkedTo h' zones objects roots objs
      ∧ (∀ o, o ∈ objs ↔ h.Reachable objects.flatten roots o)
      ∧ totals = ⟨objs.length, (objs.map Span.words).sum⟩ := by
  have hsize : h.bitmap.size = h.covered.words := by
    rw [hm.consistent.marks.size_eq, hm.consistent.bitmap_covered, ← hm.consistent.covered]
  have hnone : h.Found h zones objects roots [] [] ({}, {}) :=
    ⟨⟨⟨_, rfl⟩, hm, fun _ ho => absurd ho List.not_mem_nil⟩, .refl _, rfl⟩
  have hcount := hw.separate.length_le fun o => hw.past_le
  obtain ⟨state₁, h₁, hmarked, objs₁, hf₁, -, hroots⟩ :=
    markRoots_runs hw hnone (fun _ => id) hpoints
  obtain ⟨state₂, h₂, hscanned, hempty, objs₂, hm₂, htotals, hsub, hclosed⟩ :=
    scanPending_runs hw hf₁ (fun _ ho => absurd ho List.not_mem_nil)
      (fun _ ho => absurd ho List.not_mem_nil)
      (show objects.flatten.length < h.bitmap.size + 1 + 0 by omega)
  have hall : ∀ a ∈ roots, h.Points objs₂ a := fun a ha hspace =>
    (hroots a ha hspace).imp fun o ho => ⟨hsub o ho.1, ho.2⟩
  exact ⟨_, _, markLive_of_scanned hmarked hscanned hempty, objs₂, hm₂, hm₂.mem_iff hw hall hclosed,
    htotals⟩

end Heap

end MarkCompact
