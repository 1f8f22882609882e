import Mathlib.Data.Multiset.Basic
import Mathlib.Logic.Relation
import MarkCompact.Proofs.Terminating
import MarkCompact.WorkQueue.Tasks

/-!
# Workers that share tasks

A worker with a task may make new ones, for itself or for all.  A worker without one looks on its
own stack, in the shared queue and on the stacks of the others, and when it has seen nothing
anywhere it offers to terminate.  `Crew.Step` is one atomic step of one worker, so a sequence of
them is any interleaving.  It is left open how many tasks move along with one that comes from
elsewhere and in which order, and an attempt to steal may miss what is there.

While a worker looks, others make new tasks where it has already been.  No task is overlooked for
all that: whoever has seen its own stack empty puts nothing there before it has a task again, and of
those who put tasks into the shared queue the last one has still to look there.

Main statement: `Crew.reachable_sound` (no task is lost or obtained twice, and all are done when a
worker finishes).
-/

namespace MarkCompact

open List Relation

variable {α : Type} {n : ℕ}

/-! ## Looking for a task -/

/-- An empty queue stores nothing. -/
lemma Fifo.eq_empty_of_toList {q : Fifo α} (h : q.toList = []) : q = {} := by
  obtain ⟨front, back⟩ := q
  obtain ⟨rfl, hback⟩ := append_eq_nil_iff.1 h
  rw [reverse_eq_nil_iff] at hback
  exact congrArg (Fifo.mk []) hback

/-- Where a worker looks for a task. -/
inductive Source where
  | own
  | shared
  | peers
  deriving DecidableEq, Repr

namespace WorkQueues

variable {q q' : WorkQueues α} {v w : ℕ} {s : Source} {x : Option α}

/-- Worker `w` looks for a task and gets one or not.  Others may move along onto its stack. -/
inductive Gets (q : WorkQueues α) (w : ℕ) : Source → Option α → WorkQueues α → Prop
  | own {x : Option α} {q' : WorkQueues α} (eq : q.pop w = .ok (x, q')) : Gets q w .own x q'
  | shared {a : α} {rest : Fifo α} {moved stack stack' : List α} {t : ℕ}
      (own : q.own[w]? = some stack) (perm : q.shared.toList ~ a :: (moved ++ rest.toList))
      (stacked : stack' ~ moved ++ stack) :
      Gets q w .shared (some a) ⟨rest, q.own.set w stack', t⟩
  | empty (eq : q.shared.toList = []) : Gets q w .shared none q
  | peers {v : ℕ} {a : α} {moved rest old stack stack' : List α} (ne : v ≠ w)
      (own : q.own[w]? = some stack) (victim : q.own[v]? = some old)
      (perm : old ~ a :: (moved ++ rest)) (stacked : stack' ~ moved ++ stack) :
      Gets q w .peers (some a) { q with own := (q.own.set v rest).set w stack' }
  /-- The others may have tasks all the same. -/
  | missed : Gets q w .peers none q

/-- Tasks that move onto a stack are added. -/
lemma flatten_set_grown {rows : List (List α)} {i : ℕ} {stack stack' moved : List α}
    (h : rows[i]? = some stack) (hgrown : stack' ~ moved ++ stack) :
    (rows.set i stack').flatten ~ moved ++ rows.flatten := by
  have replaced := flatten_set_perm stack' h
  refine (perm_append_left_iff stack).1 (replaced.trans ((hgrown.append_right _).trans ?_))
  rw [append_assoc]
  exact perm_append_comm_assoc ..

namespace Gets

variable (h : q.Gets w s x q')
include h

/-- Exactly the task that is obtained leaves the queues. -/
theorem tasks_perm : x.toList ++ q'.tasks ~ q.tasks := by
  cases h with
  | own eq => exact tasks_pop eq
  | @shared a rest moved stack stack' t own perm stacked =>
    have added := flatten_set_grown own stacked
    calc a :: (rest.toList ++ (q.own.set w stack').flatten)
      _ ~ a :: (rest.toList ++ (moved ++ q.own.flatten)) := (added.append_left _).cons a
      _ ~ a :: (moved ++ rest.toList) ++ q.own.flatten := by
        rw [cons_append, append_assoc]
        exact (perm_append_comm_assoc ..).cons a
      _ ~ q.shared.toList ++ q.own.flatten := perm.symm.append_right _
  | empty => exact Perm.refl _
  | @peers v a moved rest old stack stack' ne own victim perm stacked =>
    have cut := flatten_set_perm rest victim
    have left : (q.own.set v rest)[w]? = some stack := (getElem?_set_ne ne).trans own
    have added := flatten_set_grown left stacked
    have removed : a :: (moved ++ (q.own.set v rest).flatten) ~ q.own.flatten := by
      refine (perm_append_left_iff rest).1 (Perm.trans ?_ cut)
      calc rest ++ a :: (moved ++ (q.own.set v rest).flatten)
        _ ~ a :: (rest ++ (moved ++ (q.own.set v rest).flatten)) := perm_middle
        _ ~ a :: (moved ++ (rest ++ (q.own.set v rest).flatten)) :=
          (perm_append_comm_assoc ..).cons a
        _ = a :: (moved ++ rest) ++ (q.own.set v rest).flatten := by rw [cons_append, append_assoc]
        _ ~ old ++ (q.own.set v rest).flatten := perm.symm.append_right _
    calc a :: (q.shared.toList ++ ((q.own.set v rest).set w stack').flatten)
      _ ~ q.shared.toList ++ a :: ((q.own.set v rest).set w stack').flatten := perm_middle.symm
      _ ~ q.shared.toList ++ q.own.flatten := ((added.cons a).trans removed).append_left _
  | missed => exact Perm.refl _

lemma length_eq : q'.own.length = q.own.length := by
  cases h with
  | own eq =>
    obtain ⟨stack, _, h⟩ := bind_eq_ok_iff.1 eq
    cases stack <;> cases pure_eq_ok_iff.1 h
    · rfl
    · exact length_set
  | shared => exact length_set
  | empty => rfl
  | peers => rw [length_set, length_set]
  | missed => rfl

/-- Nobody puts tasks on the empty stack of another worker. -/
lemma bare (hne : v ≠ w) (hv : q.own[v]? = some []) : q'.own[v]? = some [] := by
  cases h with
  | own eq =>
    obtain ⟨stack, _, h⟩ := bind_eq_ok_iff.1 eq
    cases stack <;> cases pure_eq_ok_iff.1 h
    · exact hv
    · exact (getElem?_set_ne hne.symm).trans hv
  | shared => exact (getElem?_set_ne hne.symm).trans hv
  | empty => exact hv
  | @peers u a moved rest old stack stack' ne own victim perm stacked =>
    have hu : u ≠ v := by
      rintro rfl
      rw [victim, Option.some.injEq] at hv
      rw [hv] at perm
      exact not_mem_nil (perm.mem_iff.2 mem_cons_self)
    exact (getElem?_set_ne hne.symm).trans ((getElem?_set_ne hu).trans hv)
  | missed => exact hv

end Gets

/-- A worker that gets nothing changes nothing.  What it has seen is empty, unless it was to
steal. -/
lemma Gets.of_none (h : q.Gets w s none q') :
    q' = q ∧ (s = .own → q.own[w]? = some []) ∧ (s = .shared → q.shared.toList = []) := by
  cases h with
  | own eq =>
    obtain ⟨stack, found, h⟩ := bind_eq_ok_iff.1 eq
    cases stack <;> cases pure_eq_ok_iff.1 h
    exact ⟨rfl, fun _ => stackOf_eq_ok_iff.1 found, nofun⟩
  | empty eq => exact ⟨rfl, nofun, fun _ => eq⟩
  | missed => exact ⟨rfl, nofun, nofun⟩

lemma exists_stackOf (q : WorkQueues α) (hw : w < q.own.length) :
    ∃ stack, q.stackOf w = .ok stack :=
  ⟨_, stackOf_eq_ok_iff.2 (getElem?_eq_getElem hw)⟩

/-- A worker can put a task on its stack. -/
lemma push_eq_ok (q : WorkQueues α) (hw : w < q.own.length) (a : α) :
    ∃ q', q.push w a = .ok q' := by
  obtain ⟨stack, heq⟩ := q.exists_stackOf hw
  exact ⟨_, by rw [push, heq]; rfl⟩

/-- A worker can look for a task anywhere. -/
lemma exists_gets (q : WorkQueues α) (hw : w < q.own.length) (s : Source) :
    ∃ x q', q.Gets w s x q' := by
  cases s with
  | own =>
    obtain ⟨stack, heq⟩ := q.exists_stackOf hw
    cases stack with
    | nil => exact ⟨none, q, .own (by rw [pop, heq]; rfl)⟩
    | cons a rest => exact ⟨some a, _, .own (by rw [pop, heq]; rfl)⟩
  | shared =>
    cases hshared : q.shared.toList with
    | nil => exact ⟨none, q, .empty hshared⟩
    | cons a rest =>
      have hperm : q.shared.toList ~ a :: ([] ++ (Fifo.mk rest []).toList) := by
        rw [hshared, nil_append, Fifo.toList, reverse_nil, append_nil]
      exact ⟨some a, _, Gets.shared (t := q.taken) (getElem?_eq_getElem hw) hperm (Perm.refl _)⟩
  | peers => exact ⟨none, q, .missed⟩

/-- A batch of tasks from a queue that is not empty is not empty. -/
lemma sharedBatch_pos (taken : ℕ) {left : ℕ} (h : 0 < left) : 0 < sharedBatch taken left := by
  have hmod : taken % blockTasks < blockTasks := Nat.mod_lt _ (by decide)
  rw [sharedBatch, Nat.lt_min]
  refine ⟨by decide, ?_⟩
  split <;> omega

/-- Keeping the first task of a batch puts the others on the stack. -/
lemma keepFirst_cons {a : α} {rest stack : List α} (h : q.own[w]? = some stack) :
    q.keepFirst w (a :: rest) = (some a, { q with own := q.own.set w (rest ++ stack) }) := by
  rw [keepFirst, modify_eq_set_getElem? (rest ++ ·) w q.own, h]
  rfl

/-- Taking from the shared queue is one of the ways to get a task, or there is none. -/
theorem gets_takeShared (h : q.takeShared w = .ok (x, q')) : q.Gets w .shared x q' := by
  obtain ⟨stack, found, h⟩ := bind_eq_ok_iff.1 h
  have own := stackOf_eq_ok_iff.1 found
  have all := q.shared.toList_take (sharedBatch q.taken q.shared.toList.length)
  have size : (q.shared.take (sharedBatch q.taken q.shared.toList.length)).1.length
      = min (sharedBatch q.taken q.shared.toList.length) q.shared.toList.length := length_take
  generalize hcount : sharedBatch q.taken q.shared.toList.length = count at h all size
  dsimp only at h
  generalize hparts : q.shared.take count = parts at h all size
  obtain ⟨batch, shared⟩ := parts
  cases batch with
  | nil =>
    have hnone : q.shared.toList = [] := length_eq_zero_iff.1 (Nat.eq_zero_of_not_pos fun hpos => by
      have := sharedBatch_pos q.taken hpos
      rw [length_nil] at size
      omega)
    have hsame : shared = q.shared := by
      rw [Fifo.eq_empty_of_toList hnone]
      rw [Fifo.take, Prod.mk.injEq, hnone, drop_nil] at hparts
      exact hparts.2.symm
    cases pure_eq_ok_iff.1 h
    rw [hsame]
    exact .empty hnone
  | cons a rest =>
    have kept := pure_eq_ok_iff.1 h
    rw [keepFirst_cons (q := { q with shared, taken := q.taken + (a :: rest).length }) own] at kept
    cases kept
    exact .shared own (.of_eq all.symm) (Perm.refl _)

/-- Stealing is one of the ways to get a task, or it misses. -/
theorem gets_steal (h : q.steal w = .ok (x, q')) : q.Gets w .peers x q' := by
  obtain ⟨stack, found, h⟩ := bind_eq_ok_iff.1 h
  have own := stackOf_eq_ok_iff.1 found
  split at h
  case h_1 =>
    cases pure_eq_ok_iff.1 h
    exact .missed
  case h_2 v victim =>
    obtain ⟨old, found', h⟩ := bind_eq_ok_iff.1 h
    have hne : v ≠ w ∧ old ≠ [] := by
      have hv := find?_some victim
      simpa only [ne_eq, getD_eq_getElem?_getD, stackOf_eq_ok_iff.1 found', Option.getD_some,
        Bool.not_eq_true', isEmpty_eq_false_iff, decide_eq_true_iff] using hv
    have parts := take_append_drop (old.length - min stealLimit ((old.length + 1) / 2)) old
    have size : (old.drop (old.length - min stealLimit ((old.length + 1) / 2))).length = _ :=
      length_drop
    dsimp only at h
    generalize hleft : old.length - min stealLimit ((old.length + 1) / 2) = left at h parts size
    have hpos := length_pos_iff.2 hne.2
    cases batch : old.drop left with
    | nil =>
      rw [batch, length_nil] at size
      have : 0 < stealLimit := by decide
      omega
    | cons a rest =>
      rw [batch] at h parts
      have kept := pure_eq_ok_iff.1 h
      rw [keepFirst_cons (q := { q with own := q.own.set v (old.take left) })
        ((getElem?_set_ne hne.1).trans own)] at kept
      cases kept
      refine .peers hne.1 own (stackOf_eq_ok_iff.1 found') ?_ (Perm.refl (rest ++ stack))
      calc old
        _ = old.take left ++ a :: rest := parts.symm
        _ ~ a :: (old.take left ++ rest) := perm_middle
        _ ~ a :: (rest ++ old.take left) := perm_append_comm.cons a

end WorkQueues

/-! ## Workers -/

/-- Where a worker has found nothing since it last had a task or took back an offer. -/
structure Seen where
  own : Bool := false
  shared : Bool := false
  peers : Bool := false

/-- The worker has found nothing in one more place. -/
def Seen.note (seen : Seen) : Source → Seen
  | .own => { seen with own := true }
  | .shared => { seen with shared := true }
  | .peers => { seen with peers := true }

/-- What a worker is at. -/
inductive Duty (α : Type) where
  /-- Has obtained a task and is at it. -/
  | processing (a : α)
  | seeking (seen : Seen)
  /-- Is between the two halves of an attempt to terminate. -/
  | offered
  /-- Was told to terminate. -/
  | finished

namespace Duty

/-- How the worker stands to termination. -/
def standing : Duty α → Standing
  | processing _ => .working
  | seeking _ => .working
  | offered => .offered
  | finished => .finished

/-- The worker has seen its stack empty. -/
def sawOwn : Duty α → Bool
  | processing _ => false
  | seeking seen => seen.own
  | offered => true
  | finished => true

/-- The worker has seen the shared queue empty. -/
def sawShared : Duty α → Bool
  | processing _ => false
  | seeking seen => seen.shared
  | offered => true
  | finished => true

/-- After an attempt to terminate. -/
def told (ended : Bool) : Duty α :=
  if ended then finished else seeking {}

end Duty

/-- Workers that share tasks. -/
structure Crew (α : Type) (n : ℕ) where
  queues : WorkQueues α
  terminator : Terminator
  duty : Fin n → Duty α
  /-- All tasks there have been. -/
  pushed : Multiset α
  /-- The tasks that workers have obtained. -/
  obtained : Multiset α

namespace Crew

/-- The workers before their first steps. -/
def start (n : ℕ) (q : WorkQueues α) : Crew α n where
  queues := q
  terminator := .forWorkers n
  duty _ := .seeking {}
  pushed := q.tasks
  obtained := 0

/-- Worker `w` goes over to something else. -/
def turn (c : Crew α n) (w : Fin n) (d : Duty α) : Crew α n :=
  { c with duty := Function.update c.duty w d }

/-- One atomic step of a worker. -/
inductive Step : Crew α n → Crew α n → Prop
  /-- Puts a new task on its own stack. -/
  | push {c : Crew α n} {w : Fin n} {a b : α} {q : WorkQueues α} (duty : c.duty w = .processing a)
      (eq : c.queues.push w b = .ok q) : Step c { c with queues := q, pushed := b ::ₘ c.pushed }
  /-- Puts a new task into the shared queue. -/
  | pushShared {c : Crew α n} {w : Fin n} {a : α} (b : α) (duty : c.duty w = .processing a) :
      Step c { c with queues := c.queues.pushShared b, pushed := b ::ₘ c.pushed }
  /-- Is done with its task. -/
  | complete {c : Crew α n} {w : Fin n} {a : α} (duty : c.duty w = .processing a) :
      Step c (c.turn w (.seeking {}))
  /-- Looks for a task and obtains one. -/
  | obtain {c : Crew α n} {w : Fin n} {seen : Seen} {s : Source} {a : α} {q : WorkQueues α}
      (duty : c.duty w = .seeking seen) (gets : c.queues.Gets w s (some a) q) :
      Step c { c.turn w (.processing a) with queues := q, obtained := a ::ₘ c.obtained }
  /-- Looks for a task and finds none. -/
  | miss {c : Crew α n} {w : Fin n} {seen : Seen} {s : Source} {q : WorkQueues α}
      (duty : c.duty w = .seeking seen) (gets : c.queues.Gets w s none q) :
      Step c { c.turn w (.seeking (seen.note s)) with queues := q }
  /-- Is on its own and need not offer. -/
  | leave {c : Crew α n} {w : Fin n} (duty : c.duty w = .seeking ⟨true, true, true⟩)
      (alone : c.terminator.workers = 1) :
      Step c (c.turn w .finished)
  /-- Offers to terminate, and is told to if it is the last one. -/
  | offer {c : Crew α n} {w : Fin n} {last : Bool} {t : Terminator}
      (duty : c.duty w = .seeking ⟨true, true, true⟩) (many : c.terminator.workers ≠ 1)
      (eq : c.terminator.offer = (last, t)) :
      Step c { c.turn w (if last then .finished else .offered) with terminator := t }
  /-- Is told to terminate, or takes its offer back. -/
  | reconsider {c : Crew α n} {w : Fin n} {ended : Bool} {t : Terminator}
      (duty : c.duty w = .offered) (eq : c.terminator.reconsider = .ok (ended, t)) :
      Step c { c.turn w (.told ended) with terminator := t }

/-- An attempt to terminate in which no other worker takes a step in between. -/
lemma steps_tryTerminate {c : Crew α n} {w : Fin n} {ended : Bool} {t : Terminator}
    (hw : c.duty w = .seeking ⟨true, true, true⟩)
    (h : c.terminator.tryTerminate = .ok (ended, t)) :
    ReflTransGen Step c { c.turn w (.told ended) with terminator := t } := by
  rw [Terminator.tryTerminate] at h
  split at h
  case isTrue alone =>
    cases pure_eq_ok_iff.1 h
    exact .single (.leave hw alone)
  case isFalse many =>
    split at h
    case h_1 _ _ eq =>
      cases pure_eq_ok_iff.1 h
      exact .single (.offer hw many eq)
    case h_2 _ t' eq =>
      have hduty : (Function.update c.duty w .offered) w = .offered := Function.update_self ..
      have htwice := Function.update_idem (Duty.offered : Duty α) (.told ended) c.duty (a := w)
      refine .tail (.single (.offer hw many eq)) ?_
      show Step _ ⟨c.queues, t, Function.update c.duty w (.told ended), c.pushed, c.obtained⟩
      rw [← htwice]
      exact .reconsider hduty h

/-! ## What holds after every step -/

/-- Nothing is lost, and nothing is where no worker would find it. -/
structure Watchful (c : Crew α n) : Prop where
  workers : c.queues.own.length = n
  quorum : Quorum (fun w => (c.duty w).standing) c.terminator
  /-- Who has seen its stack empty has no tasks. -/
  bare : ∀ w, (c.duty w).sawOwn = true → c.queues.own[w.val]? = some []
  /-- If tasks are shared, some worker has not seen the queue empty. -/
  watched : c.queues.shared.toList ≠ [] → ∃ w, (c.duty w).sawShared = false
  kept : c.obtained + (c.queues.tasks : Multiset α) = c.pushed

lemma watchful_start (hn : 0 < n) {q : WorkQueues α} (hq : q.workers = n) :
    (start n q).Watchful where
  workers := hq
  quorum := .forWorkers n
  bare _ := nofun
  watched _ := ⟨⟨0, hn⟩, rfl⟩
  kept := Multiset.zero_add _

namespace Watchful

variable {c c' : Crew α n} {w : Fin n} (hc : c.Watchful)
include hc

/-- One worker goes over to something else, and the queues and the terminator change. -/
lemma turn {d : Duty α} {q : WorkQueues α} {t : Terminator} {pushed obtained : Multiset α}
    (hworkers : q.own.length = n)
    (hquorum : Quorum (Function.update (fun v => (c.duty v).standing) w d.standing) t)
    (hself : d.sawOwn = true → q.own[w.val]? = some [])
    (hothers : ∀ v : Fin n, v ≠ w → c.queues.own[v.val]? = some [] → q.own[v.val]? = some [])
    (hwatched : d.sawShared = false ∨ q.shared.toList = []
      ∨ q.shared.toList = c.queues.shared.toList ∧ (c.duty w).sawShared = true)
    (hkept : obtained + (q.tasks : Multiset α) = pushed) :
    Watchful { c.turn w d with queues := q, terminator := t, pushed, obtained } where
  workers := hworkers
  quorum := by
    show Quorum (Duty.standing ∘ Function.update c.duty w d) t
    rw [Function.comp_update]
    exact hquorum
  bare v hv := by
    change (Function.update c.duty w d v).sawOwn = true at hv
    rcases eq_or_ne v w with rfl | hne
    · rw [Function.update_self] at hv
      exact hself hv
    · rw [Function.update_of_ne hne] at hv
      exact hothers v hne (hc.bare v hv)
  watched hshared := by
    show ∃ v, (Function.update c.duty w d v).sawShared = false
    rcases hwatched with hd | hnone | ⟨hsame, hsaw⟩
    · exact ⟨w, by rw [Function.update_self, hd]⟩
    · exact absurd hnone hshared
    · obtain ⟨v, hv⟩ := hc.watched (hsame ▸ hshared)
      have hne : v ≠ w := by
        rintro rfl
        rw [hsaw] at hv
        cases hv
      exact ⟨v, by rw [Function.update_of_ne hne, hv]⟩
  kept := hkept

/-- Busy workers may go over to anything at which they are busy. -/
lemma keep {d : Duty α} (hw : (c.duty w).standing = .working) (hd : d.standing = .working) :
    Quorum (Function.update (fun v => (c.duty v).standing) w d.standing) c.terminator :=
  hc.quorum.keep (by rw [hw]; rfl) (by rw [hd]; rfl)

/-- A worker that has looked everywhere has seen its stack empty. -/
lemma bare_of_seeking (hw : c.duty w = .seeking ⟨true, true, true⟩) :
    c.queues.own[w.val]? = some [] :=
  hc.bare w (by rw [hw]; rfl)

/-- A task that is made is kept. -/
lemma made {a b : α} {q : WorkQueues α} (hw : c.duty w = .processing a)
    (hworkers : q.own.length = n)
    (hothers : ∀ v : Fin n, v ≠ w → c.queues.own[v.val]? = some [] → q.own[v.val]? = some [])
    (htasks : q.tasks ~ b :: c.queues.tasks) :
    Watchful { c with queues := q, pushed := b ::ₘ c.pushed } where
  workers := hworkers
  quorum := hc.quorum
  bare v hv := by
    refine hothers v ?_ (hc.bare v hv)
    rintro rfl
    change (c.duty v).sawOwn = true at hv
    rw [hw] at hv
    cases hv
  watched _ := ⟨w, by
    show (c.duty w).sawShared = false
    rw [hw]
    rfl⟩
  kept := by
    show c.obtained + (q.tasks : Multiset α) = b ::ₘ c.pushed
    rw [Multiset.coe_eq_coe.2 htasks, ← Multiset.cons_coe, Multiset.add_cons, hc.kept]

theorem step (hlt : n < wordValues) (h : Step c c') : c'.Watchful := by
  cases h with
  | @push w a b q duty eq =>
    have hpushed := WorkQueues.tasks_push eq
    obtain ⟨stack, found, eq⟩ := bind_eq_ok_iff.1 eq
    cases pure_eq_ok_iff.1 eq
    refine hc.made duty (length_set.trans hc.workers) (fun v hne hv => ?_) hpushed
    exact (getElem?_set_ne fun heq => hne (Fin.ext heq.symm)).trans hv
  | pushShared b duty =>
    exact hc.made duty hc.workers (fun _ _ hv => hv) (WorkQueues.tasks_pushShared _ b)
  | complete duty =>
    exact hc.turn hc.workers (hc.keep (by rw [duty]; rfl) rfl) nofun
      (fun _ _ hv => hv) (Or.inl rfl) hc.kept
  | @obtain w seen s a q duty gets =>
    refine hc.turn (gets.length_eq.trans hc.workers) (hc.keep (by rw [duty]; rfl) rfl) nofun
      (fun v hne => gets.bare fun heq => hne (Fin.ext heq)) (Or.inl rfl) ?_
    have hperm : a ::ₘ (q.tasks : Multiset α) = c.queues.tasks :=
      Multiset.coe_eq_coe.2 gets.tasks_perm
    rw [Multiset.cons_add, ← Multiset.add_cons, hperm]
    exact hc.kept
  | @miss w seen s q duty gets =>
    obtain ⟨rfl, hown, hshared⟩ := gets.of_none
    refine hc.turn hc.workers (hc.keep (by rw [duty]; rfl) rfl) (fun hsaw => ?_)
      (fun _ _ hv => hv) ?_ hc.kept
    · cases s with
      | own => exact hown rfl
      | shared => exact hc.bare w (by rw [duty]; exact hsaw)
      | peers => exact hc.bare w (by rw [duty]; exact hsaw)
    · cases s with
      | shared => exact Or.inr (Or.inl (hshared rfl))
      | own | peers =>
        rw [duty]
        cases hsaw : seen.shared with
        | false => exact Or.inl hsaw
        | true => exact Or.inr (Or.inr ⟨rfl, hsaw⟩)
  | @leave w duty alone =>
    have hbare := hc.bare_of_seeking duty
    exact hc.turn hc.workers (hc.quorum.leave (hc.quorum.workers ▸ alone)) (fun _ => hbare)
      (fun _ _ hv => hv)
      (Or.inr (Or.inr ⟨rfl, by rw [duty]; rfl⟩)) hc.kept
  | @offer w last t duty many eq =>
    have hbare := hc.bare_of_seeking duty
    have hquorum := hc.quorum.offer (hc.quorum.workers ▸ many) hlt (by rw [duty]; rfl) eq
    refine hc.turn hc.workers ?_ (fun _ => hbare)
      (fun _ _ hv => hv) (Or.inr (Or.inr ⟨rfl, by rw [duty]; rfl⟩)) hc.kept
    rw [apply_ite Duty.standing]
    exact hquorum
  | @reconsider w ended t duty eq =>
    have hbare := hc.bare w (by rw [duty]; rfl)
    have hquorum := hc.quorum.reconsider (by rw [duty]; rfl) eq
    refine hc.turn hc.workers ?_ (fun _ => hbare)
      (fun _ _ hv => hv) (Or.inr (Or.inr ⟨rfl, by rw [duty]; rfl⟩)) hc.kept
    rw [Duty.told, apply_ite Duty.standing]
    exact hquorum

theorem reach (hlt : n < wordValues) (h : ReflTransGen Step c c') : c'.Watchful := by
  induction h with
  | refl => exact hc
  | tail _ hstep ih => exact ih.step hlt hstep

/-- Once a worker has finished the others have too or are about to. -/
lemma standing_of_finished (hw : c.duty w = .finished) (v : Fin n) :
    c.duty v = .finished ∨ c.duty v = .offered := by
  have hbusy := hc.quorum.closing w (by rw [hw]; rfl) v
  cases hv : c.duty v with
  | processing | seeking => cases hbusy.symm.trans (congrArg (fun d => (Duty.standing d).busy) hv)
  | offered => exact Or.inr rfl
  | finished => exact Or.inl rfl

/-- Once a worker has finished there are no tasks left. -/
lemma tasks_of_finished (hw : c.duty w = .finished) : c.queues.tasks = [] := by
  have hidle := hc.standing_of_finished hw
  refine append_eq_nil_iff.2
    ⟨not_not.1 fun hshared => ?_, flatten_eq_nil_iff.2 fun stack hmem => ?_⟩
  · obtain ⟨v, hv⟩ := hc.watched hshared
    rcases hidle v with heq | heq <;> rw [heq] at hv <;> cases hv
  · obtain ⟨i, hi⟩ := mem_iff_getElem?.1 hmem
    have hlt : i < n := hc.workers ▸ (List.getElem?_eq_some_iff.1 hi).1
    have hsaw : (c.duty ⟨i, hlt⟩).sawOwn = true := by
      rcases hidle ⟨i, hlt⟩ with heq | heq <;> rw [heq] <;> rfl
    exact Option.some.inj (hi.symm.trans (hc.bare ⟨i, hlt⟩ hsaw))

/-- Once a worker has finished, no other one that looks again finds anybody busy. -/
lemma reconsider_of_finished (hw : c.duty w = .finished) {v : Fin n} (hv : c.duty v = .offered) :
    c.terminator.reconsider = .ok (true, c.terminator) :=
  hc.quorum.reconsider_of_idle (w := v) (by rw [hv]; rfl) (hc.quorum.closing w (by rw [hw]; rfl))

end Watchful

/-! ## Every interleaving -/

/-- What workers that share tasks may rely on. -/
structure Sound (c : Crew α n) : Prop where
  /-- Each task has been obtained once, or it is left. -/
  kept : c.obtained + (c.queues.tasks : Multiset α) = c.pushed
  /-- Different tasks are obtained once each. -/
  once : c.pushed.Nodup → c.obtained.Nodup
  /-- An attempt to terminate does not fail. -/
  decides : ∀ w, c.duty w = .offered → ∃ ended t, c.terminator.reconsider = .ok (ended, t)
  /-- When a worker finishes, all tasks have been obtained and nobody is at one, and the others will
  be told to finish. -/
  finished : ∀ w, c.duty w = .finished → c.queues.isEmpty = true ∧ c.obtained = c.pushed
    ∧ ∀ v, c.duty v = .finished ∨ c.duty v = .offered
      ∧ c.terminator.reconsider = .ok (true, c.terminator)

/-- In every interleaving no task is lost and none is obtained twice, and no worker finishes before
all are done. -/
theorem reachable_sound (hn : 0 < n) (hlt : n < wordValues) {q : WorkQueues α} (hq : q.workers = n)
    {c : Crew α n} (h : ReflTransGen Step (start n q) c) : c.Sound := by
  have hc := (watchful_start hn hq).reach hlt h
  refine ⟨hc.kept, fun hnodup => ?_, fun w hw => hc.quorum.reconsider_eq_ok hlt (by rw [hw]; rfl),
    fun w hw => ⟨?_, ?_, fun v => ?_⟩⟩
  · exact Multiset.nodup_of_le (hc.kept ▸ Multiset.le_add_right _ _) hnodup
  · obtain ⟨hshared, hstacks⟩ := append_eq_nil_iff.1 (hc.tasks_of_finished hw)
    rw [WorkQueues.isEmpty, Bool.and_eq_true, List.isEmpty_iff, all_eq_true]
    exact ⟨hshared, fun stack hstack => List.isEmpty_iff.2
      (flatten_eq_nil_iff.1 hstacks stack hstack)⟩
  · rw [← hc.kept, hc.tasks_of_finished hw]
    exact (add_zero _).symm
  · exact (hc.standing_of_finished hw v).imp_right fun hv => ⟨hv, hc.reconsider_of_finished hw hv⟩

/-- Of two workers one obtains the only task, and the other one waits for it to be done. -/
theorem reachable_sound_two :
    0 < 2 ∧ 2 < wordValues ∧ (WorkQueues.forWorkers 2 |>.pushShared 7).workers = 2
    ∧ ∃ c : Crew ℕ 2, ReflTransGen Step (start 2 (WorkQueues.forWorkers 2 |>.pushShared 7)) c
    ∧ c.duty 0 = .finished
      ∧ c.duty 1 = .offered ∧ c.Sound := by
  have hrun : ∃ c : Crew ℕ 2,
      ReflTransGen Step (start 2 (WorkQueues.forWorkers 2 |>.pushShared 7)) c ∧ c.duty 0 = .finished
      ∧ c.duty 1 = .offered := ⟨_,
    .head (.miss (w := 0) (s := .own) rfl (.own rfl)) <|
    .head (.obtain (w := 0) (s := .shared) rfl (WorkQueues.gets_takeShared rfl)) <|
    .head (.miss (w := 1) (s := .own) rfl (.own rfl)) <|
    .head (.miss (w := 1) (s := .shared) rfl (.empty rfl)) <|
    .head (.miss (w := 1) (s := .peers) rfl .missed) <|
    .head (.offer (w := 1) rfl (by decide) rfl) <|
    .head (.complete (w := 0) rfl) <|
    .head (.miss (w := 0) (s := .own) rfl (.own rfl)) <|
    .head (.miss (w := 0) (s := .shared) rfl (.empty rfl)) <|
    .head (.miss (w := 0) (s := .peers) rfl .missed) <|
    .single (.offer (w := 0) rfl (by decide) rfl), rfl, rfl⟩
  obtain ⟨c, hsteps, hfinished, hoffered⟩ := hrun
  exact ⟨by decide, by decide, rfl, c, hsteps, hfinished, hoffered,
    reachable_sound (n := 2) (by decide) (by decide) rfl hsteps⟩

end Crew

end MarkCompact
