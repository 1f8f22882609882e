import MarkCompact.Marking
import MarkCompact.Proofs.Stealing

/-!
# Marking by several workers

Each worker has a short segment of its own, in which an object that it has marked is put, and shares
the queues with the others when the segment is full or it has marked much.  It scans the objects of
its segment, and looks for one in the queues when there are none.  Between any two steps of a worker
the others may take steps: `MarkTeam.Step w` is one step of worker `w`, and `MarkTeam.RunsTo` are
the runs of all of them.

To the queues and the terminator the workers are a `Crew`, in which a worker that has objects in its
segment is at a task.

Main statement: `Watched.runsTo` (objects are left nowhere when a worker has finished, see
`Watched.nothing_aside`).
-/

namespace MarkCompact

variable {μ σ : Type} {n : ℕ}

/-! ## Workers -/

/-- What a worker is at. -/
inductive Activity (σ : Type) where
  /-- Looks for an object to scan. -/
  | seeking (seen : Seen)
  /-- Visits the slots of an object. -/
  | visiting (slots : List σ)
  /-- Has marked the object at `addr`, with slots left to visit. -/
  | holding (addr : ℕ) (slots : List σ)
  /-- Moves objects of its segment to the shared queue until `target` are left, with slots left to
  visit. -/
  | sharing (target : ℕ) (slots : List σ)
  /-- Has offered to terminate. -/
  | offered
  | finished

namespace Activity

/-- The slots that are left to visit. -/
def slots : Activity σ → List σ
  | visiting slots => slots
  | holding _ slots => slots
  | sharing _ slots => slots
  | _ => []

/-- The object that was marked and is nowhere yet. -/
def held : Activity σ → List ℕ
  | holding addr _ => [addr]
  | _ => []

end Activity

/-- A worker that marks. -/
structure Marker (σ : Type) where
  segment : List ℕ := []
  /-- Objects put into the segment since the worker last shared. -/
  marked : ℕ := 0
  totals : MarkTotals := {}
  doing : Activity σ := .seeking {}

namespace Marker

/-- The objects that only the worker knows of. -/
def aside (m : Marker σ) : Multiset ℕ :=
  (m.doing.held ++ m.segment : List ℕ)

/-- Puts a marked object into the segment, and goes on to visit slots.  A busy worker shares
first. -/
def put (m : Marker σ) (addr : ℕ) (slots : List σ) : Marker σ :=
  let segment := addr :: m.segment
  if shareInterval < m.marked + 1 then
    if shareMinimum < segment.length
      then { m with segment, doing := .sharing (segment.length / 2) slots }
    else { m with segment, marked := 0, doing := .visiting slots }
  else { m with segment, marked := m.marked + 1, doing := .visiting slots }

/-- Leaves, with its totals handed over. -/
def finish (m : Marker σ) : Marker σ :=
  { m with totals := {}, doing := .finished }

/-- The worker has an object to scan, or is at one. -/
def Busy (m : Marker σ) : Prop :=
  match m.doing with
  | .seeking _ => m.segment ≠ []
  | .offered => False
  | .finished => False
  | _ => True

/-- What the worker is at in the eyes of the others. -/
inductive Does (m : Marker σ) : Duty ℕ → Prop
  | processing (a : ℕ) (busy : m.Busy) : Does m (.processing a)
  | seeking {seen : Seen} (doing : m.doing = .seeking seen) (segment : m.segment = []) :
      Does m (.seeking seen)
  | offered (doing : m.doing = .offered) (segment : m.segment = []) : Does m .offered
  | finished (doing : m.doing = .finished) (segment : m.segment = []) (totals : m.totals = {}) :
      Does m .finished

namespace Does

variable {m : Marker σ} {d : Duty ℕ} (h : m.Does d)
include h

lemma of_busy (hm : m.Busy) : ∃ a, d = .processing a := by
  rw [Busy] at hm
  cases h with
  | processing a => exact ⟨a, rfl⟩
  | seeking doing segment =>
    rw [doing] at hm
    exact absurd segment hm
  | offered doing | finished doing =>
    rw [doing] at hm
    exact hm.elim

lemma of_seeking {seen : Seen} (hdoing : m.doing = .seeking seen) (hsegment : m.segment = []) :
    d = .seeking seen := by
  cases h with
  | processing a busy =>
    rw [Busy, hdoing] at busy
    exact absurd hsegment busy
  | seeking doing =>
    rw [hdoing, Activity.seeking.injEq] at doing
    rw [doing]
  | offered doing | finished doing => cases hdoing.symm.trans doing

lemma of_offered (hdoing : m.doing = .offered) : d = .offered ∧ m.segment = [] := by
  cases h with
  | processing a busy =>
    rw [Busy, hdoing] at busy
    exact busy.elim
  | offered _ segment => exact ⟨rfl, segment⟩
  | seeking doing | finished doing => cases hdoing.symm.trans doing

lemma of_finished (hdoing : m.doing = .finished) :
    d = .finished ∧ m.segment = [] ∧ m.totals = {} := by
  cases h with
  | processing a busy =>
    rw [Busy, hdoing] at busy
    exact busy.elim
  | finished _ segment totals => exact ⟨rfl, segment, totals⟩
  | seeking doing | offered doing => cases hdoing.symm.trans doing

end Does

end Marker

/-- The totals of two together. -/
def MarkTotals.merge (t t' : MarkTotals) : MarkTotals :=
  ⟨t.objects + t'.objects, t.words + t'.words⟩

/-- What workers have in common. -/
structure Workplace (μ : Type) where
  heap : Heap μ
  queues : WorkQueues ℕ
  terminator : Terminator
  /-- What was counted for the roots and by the workers that have finished. -/
  totals : MarkTotals
  /-- The objects that a worker has begun to scan, the last one first. -/
  scanned : List ℕ := []

/-- The totals of a worker that finishes are handed over. -/
def Workplace.collect (p : Workplace μ) (m : Marker σ) : Workplace μ :=
  { p with totals := p.totals.merge m.totals }

/-! ## Steps of one worker -/

/-- The slots of the object at `addr`, its metadata reference last. -/
def ObjectModel.allSlots [ObjectModel μ] (image : μ) (addr : ℕ) :
    Except Fault (List (ObjectModel.Slot μ)) := do
  let slots ← ObjectModel.slots image addr
  pure (slots ++ (ObjectModel.metadataSlot image addr).toList)

namespace Marker

variable [ObjectModel μ]

/-- Steps of worker `w` in which it marks. -/
inductive Works (w : ℕ) (p : Workplace μ) (m : Marker (ObjectModel.Slot μ)) :
    Workplace μ → Marker (ObjectModel.Slot μ) → Prop
  /-- Begins to scan the newest object of its segment. -/
  | take {seen : Seen} {a : ℕ} {rest : List ℕ} {slots : List (ObjectModel.Slot μ)}
      (doing : m.doing = .seeking seen) (segment : m.segment = a :: rest)
      (eq : ObjectModel.allSlots p.heap.image a = .ok slots) :
      Works w p m { p with scanned := a :: p.scanned }
        { m with segment := rest, doing := .visiting slots }
  /-- Begins to scan an object from the queues. -/
  | obtain {seen : Seen} {s : Source} {a : ℕ} {q : WorkQueues ℕ} {slots : List (ObjectModel.Slot μ)}
      (doing : m.doing = .seeking seen)
      (segment : m.segment = []) (gets : p.queues.Gets w s (some a) q)
      (eq : ObjectModel.allSlots p.heap.image a = .ok slots) :
      Works w p m { p with queues := q, scanned := a :: p.scanned }
        { m with doing := .visiting slots }
  /-- Visits a slot, and there is nothing to mark. -/
  | skip {slot : ObjectModel.Slot μ} {rest : List (ObjectModel.Slot μ)} {a : ℕ} {h : Heap μ}
      (doing : m.doing = .visiting (slot :: rest))
      (load : (ObjectModel.read p.heap.image slot).load = .ok a)
      (old : Heap.markObject a p.heap = .ok (none, h)) :
      Works w p m { p with heap := h } { m with doing := .visiting rest }
  /-- Visits a slot, and marks what it refers to. -/
  | mark {slot : ObjectModel.Slot μ} {rest : List (ObjectModel.Slot μ)} {a words : ℕ} {h : Heap μ}
      (doing : m.doing = .visiting (slot :: rest))
      (load : (ObjectModel.read p.heap.image slot).load = .ok a)
      (new : Heap.markObject a p.heap = .ok (some words, h)) :
      Works w p m { p with heap := h }
        { m with totals := m.totals.count words, doing := .holding a rest }
  | put {a : ℕ} {slots : List (ObjectModel.Slot μ)} (doing : m.doing = .holding a slots)
      (room : m.segment.length < segmentSize) : Works w p m p (m.put a slots)
  /-- Has no room for a marked object in its segment. -/
  | push {a : ℕ} {slots : List (ObjectModel.Slot μ)} {q : WorkQueues ℕ}
      (doing : m.doing = .holding a slots) (full : segmentSize ≤ m.segment.length)
      (eq : p.queues.push w a = .ok q) :
      Works w p m { p with queues := q } { m with doing := .visiting slots }
  /-- Moves one more object to the shared queue. -/
  | share {a target : ℕ} {rest : List ℕ} {slots : List (ObjectModel.Slot μ)}
      (doing : m.doing = .sharing target slots) (segment : m.segment = a :: rest)
      (more : target < m.segment.length) :
      Works w p m { p with queues := p.queues.pushShared a } { m with segment := rest }
  /-- Has shared enough. -/
  | shared {target : ℕ} {slots : List (ObjectModel.Slot μ)}
      (doing : m.doing = .sharing target slots) (enough : m.segment.length ≤ target) :
      Works w p m p { m with marked := 0, doing := .visiting slots }
  /-- Has visited all slots. -/
  | visited (doing : m.doing = .visiting []) : Works w p m p { m with doing := .seeking {} }

/-- Steps of worker `w` in which it has nothing to do. -/
inductive Rests (w : ℕ) (p : Workplace μ) (m : Marker σ) : Workplace μ → Marker σ → Prop
  | miss {seen : Seen} {s : Source} {q : WorkQueues ℕ} (doing : m.doing = .seeking seen)
      (segment : m.segment = []) (gets : p.queues.Gets w s none q) :
      Rests w p m { p with queues := q } { m with doing := .seeking (seen.note s) }
  /-- Is on its own. -/
  | leave (doing : m.doing = .seeking ⟨true, true, true⟩) (segment : m.segment = [])
      (alone : p.terminator.workers = 1) :
      Rests w p m (p.collect m) m.finish
  | offer {t : Terminator} (doing : m.doing = .seeking ⟨true, true, true⟩)
      (segment : m.segment = []) (many : p.terminator.workers ≠ 1)
      (eq : p.terminator.offer = (false, t)) :
      Rests w p m { p with terminator := t } { m with doing := .offered }
  /-- Is the last one to offer. -/
  | last {t : Terminator} (doing : m.doing = .seeking ⟨true, true, true⟩) (segment : m.segment = [])
      (many : p.terminator.workers ≠ 1) (eq : p.terminator.offer = (true, t)) :
      Rests w p m ({ p with terminator := t }.collect m) m.finish
  /-- Looks again and sees that all have offered. -/
  | follow {t : Terminator} (doing : m.doing = .offered)
      (eq : p.terminator.reconsider = .ok (true, t)) :
      Rests w p m ({ p with terminator := t }.collect m) m.finish
  /-- Looks again and takes its offer back. -/
  | again {t : Terminator} (doing : m.doing = .offered)
      (eq : p.terminator.reconsider = .ok (false, t)) :
      Rests w p m { p with terminator := t } { m with doing := .seeking {} }

end Marker

/-! ## Workers together -/

/-- Workers at their workplace. -/
structure MarkTeam (μ : Type) [ObjectModel μ] (n : ℕ) extends Workplace μ where
  marker : Fin n → Marker (ObjectModel.Slot μ)

namespace MarkTeam

variable [ObjectModel μ]

/-- The workers before their first steps, when roots have been marked and wait. -/
def start (n : ℕ) (h : Heap μ) (roots : Pending × MarkTotals) : MarkTeam μ n where
  heap := h
  queues := { WorkQueues.forWorkers n with shared := roots.1.shared }
  terminator := .forWorkers n
  totals := roots.2
  marker _ := {}

/-- Worker `w` has changed, and the workplace. -/
def act (t : MarkTeam μ n) (w : Fin n) (p : Workplace μ) (m : Marker (ObjectModel.Slot μ)) :
    MarkTeam μ n :=
  ⟨p, Function.update t.marker w m⟩

section

variable {t : MarkTeam μ n} {v w : Fin n} {p : Workplace μ} {m : Marker (ObjectModel.Slot μ)}

@[simp] lemma act_toWorkplace : (t.act w p m).toWorkplace = p := rfl

@[simp] lemma act_marker_self : (t.act w p m).marker w = m :=
  Function.update_self ..

lemma act_marker_of_ne (h : v ≠ w) : (t.act w p m).marker v = t.marker v :=
  Function.update_of_ne h ..

/-- What the workers add up to, when one of them has changed. -/
lemma sum_act_add {A : Type} [AddCommMonoid A] (f : Marker (ObjectModel.Slot μ) → A) :
    ∑ v, f ((t.act w p m).marker v) + f (t.marker w) = ∑ v, f (t.marker v) + f m :=
  sum_update_add f t.marker w m

end

/-- Worker `w` takes a step, in which it does some work or does not. -/
inductive Step (w : Fin n) : Bool → MarkTeam μ n → MarkTeam μ n → Prop
  | work {t : MarkTeam μ n} {p : Workplace μ} {m : Marker (ObjectModel.Slot μ)}
      (works : (t.marker w).Works w t.toWorkplace p m) :
      Step w true t (t.act w p m)
  | rest {t : MarkTeam μ n} {p : Workplace μ} {m : Marker (ObjectModel.Slot μ)}
      (rests : (t.marker w).Rests w t.toWorkplace p m) :
      Step w false t (t.act w p m)

/-- A run of the workers in which so many steps do some work. -/
inductive RunsTo : ℕ → MarkTeam μ n → MarkTeam μ n → Prop
  | refl (t : MarkTeam μ n) : RunsTo 0 t t
  | step {k : ℕ} {t t' t'' : MarkTeam μ n} {w : Fin n} {work : Bool} (run : RunsTo k t t')
      (step : Step w work t' t'') :
      RunsTo (k + work.toNat) t t''

/-- All workers have finished. -/
def Ended (t : MarkTeam μ n) : Prop :=
  ∀ w, (t.marker w).doing = .finished

/-! ## Nothing is left behind -/

/-- A crew that does what the workers do. -/
structure Mirrors (t : MarkTeam μ n) (c : Crew ℕ n) : Prop where
  queues : c.queues = t.queues
  terminator : c.terminator = t.terminator
  does : ∀ w, (t.marker w).Does (c.duty w)

/-- Some crew that loses no task does what the workers do. -/
def Watched (t : MarkTeam μ n) : Prop :=
  ∃ c, t.Mirrors c ∧ c.Watchful

lemma watched_start (hn : 0 < n) (h : Heap μ) (roots : Pending × MarkTotals) :
    (start n h roots).Watched :=
  ⟨.start n (start n h roots).queues, ⟨rfl, rfl, fun _ => .seeking rfl rfl⟩,
    Crew.watchful_start hn List.length_replicate⟩

end MarkTeam

section

variable [ObjectModel μ]

namespace MarkTeam.Mirrors

variable {t : MarkTeam μ n} {c : Crew ℕ n} {w : Fin n} {p : Workplace μ}
  {m : Marker (ObjectModel.Slot μ)} (hc : t.Mirrors c)
include hc

/-- Worker `w` goes over to something else, in the eyes of the others too. -/
lemma turn {c' : Crew ℕ n} {d : Duty ℕ} (hduty : c'.duty = Function.update c.duty w d)
    (hqueues : c'.queues = p.queues) (hterminator : c'.terminator = p.terminator)
    (hself : m.Does d) : (t.act w p m).Mirrors c' where
  queues := hqueues
  terminator := hterminator
  does v := by
    rw [hduty]
    rcases eq_or_ne v w with rfl | hne
    · rw [act_marker_self, Function.update_self]
      exact hself
    · rw [act_marker_of_ne hne, Function.update_of_ne hne]
      exact hc.does v

/-- Worker `w` is busy before and after. -/
lemma stay {c' : Crew ℕ n} (hduty : c'.duty = c.duty) (hqueues : c'.queues = p.queues)
    (hterminator : c'.terminator = p.terminator)
    {a : ℕ} (hw : c.duty w = .processing a) (hm : m.Busy) : (t.act w p m).Mirrors c' :=
  hc.turn (by rw [hduty, ← hw, Function.update_eq_self]) hqueues hterminator (.processing a hm)

/-- To the others, a worker that works is at a task, or obtains one, or is done with one. -/
lemma works (h : (t.marker w).Works w t.toWorkplace p m) :
    ∃ c', Relation.ReflTransGen Crew.Step c c' ∧ (t.act w p m).Mirrors c' := by
  have hdoes := hc.does w
  have hqueues := hc.queues
  have hterminator := hc.terminator
  cases h with
  | take doing segment =>
    obtain ⟨b, hb⟩ := hdoes.of_busy (by rw [Marker.Busy, doing, segment]; nofun)
    exact ⟨c, .refl, hc.stay rfl hqueues hterminator hb trivial⟩
  | @obtain seen s a q slots doing segment gets =>
    rw [← hqueues] at gets
    exact ⟨_, .single (.obtain (hdoes.of_seeking doing segment) gets),
      hc.turn rfl rfl hterminator (.processing a trivial)⟩
  | skip doing | mark doing | shared doing =>
    obtain ⟨b, hb⟩ := hdoes.of_busy (by rw [Marker.Busy, doing]; trivial)
    exact ⟨c, .refl, hc.stay rfl hqueues hterminator hb trivial⟩
  | put doing =>
    obtain ⟨b, hb⟩ := hdoes.of_busy (by rw [Marker.Busy, doing]; trivial)
    refine ⟨c, .refl, hc.stay rfl hqueues hterminator hb ?_⟩
    rw [Marker.put]
    split
    · split <;> trivial
    · trivial
  | push doing full eq =>
    obtain ⟨b, hb⟩ := hdoes.of_busy (by rw [Marker.Busy, doing]; trivial)
    rw [← hqueues] at eq
    exact ⟨_, .single (.push hb eq), hc.stay rfl rfl hterminator hb trivial⟩
  | share doing =>
    obtain ⟨b, hb⟩ := hdoes.of_busy (by rw [Marker.Busy, doing]; trivial)
    refine ⟨_, .single (.pushShared _ hb),
      hc.stay rfl (congrArg (WorkQueues.pushShared · _) hqueues) hterminator hb ?_⟩
    rw [Marker.Busy, doing]
    trivial
  | visited doing =>
    obtain ⟨b, hb⟩ := hdoes.of_busy (by rw [Marker.Busy, doing]; trivial)
    by_cases hsegment : (t.marker w).segment = []
    · exact ⟨_, .single (.complete hb), hc.turn rfl hqueues hterminator (.seeking rfl hsegment)⟩
    · exact ⟨c, .refl, hc.stay rfl hqueues hterminator hb hsegment⟩

/-- To the others, a worker that rests looks for a task or attempts to terminate. -/
lemma rests (h : (t.marker w).Rests w t.toWorkplace p m) :
    ∃ c', Crew.Step c c' ∧ (t.act w p m).Mirrors c' := by
  have hdoes := hc.does w
  have hqueues := hc.queues
  have hterminator := hc.terminator
  cases h with
  | miss doing segment gets =>
    rw [← hqueues] at gets
    exact ⟨_, .miss (hdoes.of_seeking doing segment) gets,
      hc.turn rfl rfl hterminator (.seeking rfl segment)⟩
  | leave doing segment alone =>
    rw [← hterminator] at alone
    exact ⟨_, .leave (hdoes.of_seeking doing segment) alone,
      hc.turn rfl hqueues hterminator (.finished rfl segment rfl)⟩
  | offer doing segment many eq =>
    rw [← hterminator] at many eq
    exact ⟨_, .offer (hdoes.of_seeking doing segment) many eq,
      hc.turn rfl hqueues rfl (.offered rfl segment)⟩
  | last doing segment many eq =>
    rw [← hterminator] at many eq
    exact ⟨_, .offer (hdoes.of_seeking doing segment) many eq,
      hc.turn rfl hqueues rfl (.finished rfl segment rfl)⟩
  | follow doing eq =>
    obtain ⟨hoffered, hsegment⟩ := hdoes.of_offered doing
    rw [← hterminator] at eq
    exact ⟨_, .reconsider hoffered eq, hc.turn rfl hqueues rfl (.finished rfl hsegment rfl)⟩
  | again doing eq =>
    obtain ⟨hoffered, hsegment⟩ := hdoes.of_offered doing
    rw [← hterminator] at eq
    exact ⟨_, .reconsider hoffered eq, hc.turn rfl hqueues rfl (.seeking rfl hsegment)⟩

end MarkTeam.Mirrors

namespace MarkTeam.Watched

variable {t t' : MarkTeam μ n} {w : Fin n} (hb : t.Watched)
include hb

theorem step {work : Bool} (hlt : n < wordValues) (h : t.Step w work t') : t'.Watched := by
  obtain ⟨c, hc, hwatchful⟩ := hb
  cases h with
  | work works =>
    obtain ⟨c', hsteps, hc'⟩ := hc.works works
    exact ⟨c', hc', hwatchful.reach hlt hsteps⟩
  | rest rests =>
    obtain ⟨c', hstep, hc'⟩ := hc.rests rests
    exact ⟨c', hc', hwatchful.step hlt hstep⟩

theorem runsTo {k : ℕ} (hlt : n < wordValues) (h : t.RunsTo k t') : t'.Watched := by
  induction h with
  | refl t => exact hb
  | step _ step ih => exact (ih hb).step hlt step

/-- Each worker has a stack. -/
lemma stacks_length : t.queues.own.length = n := by
  obtain ⟨c, hc, hwatchful⟩ := hb
  rw [← hc.queues]
  exact hwatchful.workers

/-- Looking again does not fail. -/
lemma reconsider_eq_ok (hlt : n < wordValues) (hw : (t.marker w).doing = .offered) :
    ∃ ended t', t.terminator.reconsider = .ok (ended, t') := by
  obtain ⟨c, hc, hwatchful⟩ := hb
  rw [← hc.terminator]
  exact hwatchful.quorum.reconsider_eq_ok hlt (w := w) (by rw [((hc.does w).of_offered hw).1]; rfl)

/-- A worker that is done or about to be has handed over what it had. -/
lemma of_finished (hw : (t.marker w).doing = .finished) :
    (t.marker w).segment = [] ∧ (t.marker w).totals = {} := by
  obtain ⟨c, hc, _⟩ := hb
  exact ((hc.does w).of_finished hw).2

lemma of_offered (hw : (t.marker w).doing = .offered) : (t.marker w).segment = [] := by
  obtain ⟨c, hc, _⟩ := hb
  exact ((hc.does w).of_offered hw).2

/-- Once all workers have finished or are about to, those that look again see it. -/
lemma reconsider_of_gone (hgone : ∀ v, (t.marker v).doing = .finished
    ∨ (t.marker v).doing = .offered)
    (hw : (t.marker w).doing = .offered) : t.terminator.reconsider = .ok (true, t.terminator) := by
  obtain ⟨c, hc, hwatchful⟩ := hb
  rw [← hc.terminator]
  refine hwatchful.quorum.reconsider_of_idle (w := w) (by rw [((hc.does w).of_offered hw).1]; rfl)
    fun v => ?_
  rcases hgone v with hv | hv
  · rw [((hc.does v).of_finished hv).1]
    rfl
  · rw [((hc.does v).of_offered hv).1]
    rfl

/-- If workers that look for a task do not get one anywhere, and the others have finished or are
about to, there are none. -/
lemma tasks_eq_nil
    (hidle : ∀ v, (t.marker v).segment = [] ∧ ((∃ seen, (t.marker v).doing = .seeking seen)
      ∨ (t.marker v).doing = .finished ∨ (t.marker v).doing = .offered))
    (hnone : ∀ v seen, (t.marker v).doing = .seeking seen → ∀ s a q, ¬t.queues.Gets v s
      (some a) q) : t.queues.tasks = [] := by
  have hlength := hb.stacks_length
  obtain ⟨c, hc, hwatchful⟩ := hb
  have hstack : ∀ v : Fin n, t.queues.own[v.val]? = some [] := fun v => by
    rcases hidle v with ⟨hsegment, ⟨seen, hv⟩ | hv | hv⟩
    · obtain ⟨stack, hown⟩ := t.queues.exists_stackOf (v.isLt.trans_eq hlength.symm)
      cases stack with
      | nil => exact WorkQueues.stackOf_eq_ok_iff.1 hown
      | cons a rest =>
        exact absurd (.own (by rw [WorkQueues.pop, hown]; rfl)) (hnone v seen hv .own a _)
    · rw [← hc.queues]
      exact hwatchful.bare v (by rw [((hc.does v).of_finished hv).1]; rfl)
    · rw [← hc.queues]
      exact hwatchful.bare v (by rw [((hc.does v).of_offered hv).1]; rfl)
  refine List.append_eq_nil_iff.2
    ⟨not_not.1 fun hshared => ?_, List.flatten_eq_nil_iff.2 fun stack hmem => ?_⟩
  · obtain ⟨v, hv⟩ := hwatchful.watched (hc.queues ▸ hshared)
    rcases hidle v with ⟨hsegment, ⟨seen, hdoing⟩ | hdoing | hdoing⟩
    · obtain ⟨a, rest, hlist⟩ := List.exists_cons_of_ne_nil hshared
      have hgets : t.queues.Gets v .shared (some a)
          ⟨⟨rest, []⟩, t.queues.own.set v [], t.queues.taken⟩ := by
        refine .shared (hstack v) ?_ (List.Perm.refl ([] ++ []))
        rw [hlist, List.nil_append, Fifo.toList, List.reverse_nil, List.append_nil]
      exact hnone v seen hdoing _ _ _ hgets
    · rw [((hc.does v).of_finished hdoing).1] at hv
      cases hv
    · rw [((hc.does v).of_offered hdoing).1] at hv
      cases hv
  · obtain ⟨i, hi⟩ := List.mem_iff_getElem?.1 hmem
    have hlt : i < n := hlength ▸ (List.getElem?_eq_some_iff.1 hi).1
    exact Option.some.inj (hi.symm.trans (hstack ⟨i, hlt⟩))

/-- When a worker has finished, none has anything left, nothing is in the queues, and the others are
about to finish. -/
theorem nothing_aside (hw : (t.marker w).doing = .finished) : t.queues.tasks = []
    ∧ ∀ v, (t.marker v).segment = []
    ∧ ((t.marker v).doing = .finished ∨ (t.marker v).doing = .offered) := by
  obtain ⟨c, hc, hwatchful⟩ := hb
  have hfinished := ((hc.does w).of_finished hw).1
  refine ⟨hc.queues ▸ hwatchful.tasks_of_finished hfinished, fun v => ?_⟩
  have hdoes := hc.does v
  rcases hwatchful.standing_of_finished hfinished v with hv
    | hv <;> rw [hv] at hdoes <;> cases hdoes
  case inl.finished doing segment _ => exact ⟨segment, Or.inl doing⟩
  case inr.offered doing segment => exact ⟨segment, Or.inr doing⟩

end MarkTeam.Watched

end

end MarkCompact
