import MarkCompact.Word

/-!
# Work queues and termination

Workers share a queue in which the oldest task comes first, and each has a stack of its own in which
the newest task comes first.  A worker without a task takes one from its own stack, then from the
shared queue, then from the oldest end of another worker's stack.  With a task that comes from
elsewhere, more tasks move along, onto the worker's own stack, in the order in which they would have
been taken one by one: about half of what is there, up to a limit, and from the shared queue none
beyond the end of the block that its oldest task is stored in.

A worker that finds nothing offers to terminate.  The phase ends once all workers have offered at
the same time; a worker that sees others still busy takes its offer back.  `Terminator.offer` and
`Terminator.reconsider` are the two atomic halves of an attempt.
-/

namespace MarkCompact

/-! ## Queues -/

/-- A queue: what was put in first is taken first. -/
structure Fifo (α : Type) where
  front : List α := []
  back : List α := []

namespace Fifo

variable {α : Type}

/-- The tasks in the order in which they are taken. -/
def toList (q : Fifo α) : List α :=
  q.front ++ q.back.reverse

/-- Puts a task in. -/
def push (q : Fifo α) (a : α) : Fifo α :=
  { q with back := a :: q.back }

/-- Takes the `n` oldest tasks. -/
def take (q : Fifo α) (n : Nat) : List α × Fifo α :=
  (q.toList.take n, ⟨q.toList.drop n, []⟩)

/-- Takes the oldest task. -/
def pop? (q : Fifo α) : Option (α × Fifo α) :=
  match q.front with
  | a :: rest => some (a, { q with front := rest })
  | [] =>
    match q.back.reverse with
    | a :: rest => some (a, ⟨rest, []⟩)
    | [] => none

@[simp] theorem toList_push (q : Fifo α) (a : α) : (q.push a).toList = q.toList ++ [a] := by
  simp [toList, push]

/-- Taking some tasks loses none. -/
theorem toList_take (q : Fifo α) (n : Nat) : (q.take n).1 ++ (q.take n).2.toList = q.toList := by
  simp [take, toList]

theorem pop?_eq_none_iff (q : Fifo α) : q.pop? = none ↔ q.toList = [] := by
  obtain ⟨front, back⟩ := q
  cases front with
  | cons a rest => simp [pop?, toList]
  | nil =>
    cases h : back.reverse with
    | nil => simp_all [pop?, toList]
    | cons a rest => simp_all [pop?, toList]

theorem toList_of_pop? {q q' : Fifo α} {a : α} (h : q.pop? = some (a, q')) :
    q.toList = a :: q'.toList := by
  obtain ⟨front, back⟩ := q
  cases front with
  | cons b rest =>
    simp only [pop?, Option.some.injEq, Prod.mk.injEq] at h
    obtain ⟨rfl, rfl⟩ := h
    simp [toList]
  | nil =>
    cases hb : back.reverse with
    | nil => simp [pop?, hb] at h
    | cons b rest =>
      simp only [pop?, hb, Option.some.injEq, Prod.mk.injEq] at h
      obtain ⟨rfl, rfl⟩ := h
      simp [toList, hb]

end Fifo

/-! ## The queues of a group of workers -/

/-- The most tasks that are stolen from another worker at once. -/
def stealLimit : Nat := 32

/-- The most tasks that leave the shared queue at once. -/
def sharedLimit : Nat := stealLimit + 1

/-- The number of tasks that the shared queue stores in one block. -/
def blockTasks : Nat := 63

/-- How many of `left` tasks leave the shared queue at once, if `taken` tasks left it before: half
of them if they are in one block, otherwise the rest of the first block. -/
def sharedBatch (taken left : Nat) : Nat :=
  min sharedLimit
    (if taken / blockTasks = (taken + left) / blockTasks then (left + 1) / 2
     else blockTasks - taken % blockTasks)

/-- The shared queue, and one stack per worker with the newest task first. -/
structure WorkQueues (α : Type) where
  shared : Fifo α
  own : List (List α)
  /-- Tasks that have left the shared queue. -/
  taken : Nat := 0

namespace WorkQueues

variable {α : Type}

/-- Empty queues for a number of workers. -/
def forWorkers (workers : Nat) : WorkQueues α :=
  { shared := {}, own := List.replicate workers [] }

/-- The number of workers. -/
def workers (q : WorkQueues α) : Nat :=
  q.own.length

/-- Whether no task is left anywhere. -/
def isEmpty (q : WorkQueues α) : Bool :=
  q.shared.toList.isEmpty && q.own.all List.isEmpty

/-- The stack of worker `w`. -/
def stackOf (q : WorkQueues α) (w : Nat) : Except Fault (List α) :=
  match q.own[w]? with
  | some stack => pure stack
  | none => throw (.indexOutOfBounds q.own.length w)

/-- Puts a task into the shared queue. -/
def pushShared (q : WorkQueues α) (a : α) : WorkQueues α :=
  { q with shared := q.shared.push a }

/-- Worker `w` puts a task on its own stack. -/
def push (q : WorkQueues α) (w : Nat) (a : α) : Except Fault (WorkQueues α) := do
  let stack ← q.stackOf w
  pure { q with own := q.own.set w (a :: stack) }

/-- Worker `w` takes its newest task. -/
def pop (q : WorkQueues α) (w : Nat) : Except Fault (Option α × WorkQueues α) := do
  match ← q.stackOf w with
  | [] => pure (none, q)
  | a :: rest => pure (some a, { q with own := q.own.set w rest })

/-- Takes the oldest task of the shared queue. -/
def popShared (q : WorkQueues α) : Option α × WorkQueues α :=
  match q.shared.pop? with
  | none => (none, q)
  | some (a, shared) => (some a, { q with shared, taken := q.taken + 1 })

/-- Worker `w` keeps the first of some tasks; the others move onto its stack. -/
def keepFirst (q : WorkQueues α) (w : Nat) : List α → Option α × WorkQueues α
  | [] => (none, q)
  | a :: rest => (some a, { q with own := q.own.modify w (rest ++ ·) })

/-- Worker `w` takes the oldest task of the shared queue, and a batch along with it. -/
def takeShared (q : WorkQueues α) (w : Nat) : Except Fault (Option α × WorkQueues α) := do
  let _ ← q.stackOf w
  let n := sharedBatch q.taken q.shared.toList.length
  let (batch, shared) := q.shared.take n
  pure ({ q with shared, taken := q.taken + batch.length }.keepFirst w batch)

/-- The first worker other than `w` that has a task. -/
def victim? (q : WorkQueues α) (w : Nat) : Option Nat :=
  (List.range q.workers).find? fun v => v ≠ w ∧ !(q.own.getD v []).isEmpty

/-- Worker `w` takes the oldest tasks of another worker, and keeps the newest of these. -/
def steal (q : WorkQueues α) (w : Nat) : Except Fault (Option α × WorkQueues α) := do
  let _ ← q.stackOf w
  match q.victim? w with
  | none => pure (none, q)
  | some v =>
    let stack ← q.stackOf v
    let left := stack.length - min stealLimit ((stack.length + 1) / 2)
    pure ({ q with own := q.own.set v (stack.take left) }.keepFirst w (stack.drop left))

/-- Everything worker `w` obtains from its own stack, the shared queue and the other workers until
nothing is left. -/
def drain (q : WorkQueues α) (w : Nat) : Except Fault (List α × WorkQueues α) := do
  let _ ← q.stackOf w
  pure (q.shared.toList ++ q.own.flatten,
    { forWorkers q.workers with taken := q.taken + q.shared.toList.length })

end WorkQueues

/-! ## Termination -/

/-- Counts the workers that have not offered to terminate. -/
structure Terminator where
  workers : Nat
  busy : Nat
  deriving DecidableEq, Repr

namespace Terminator

/-- A group in which every worker is busy. -/
def forWorkers (workers : Nat) : Terminator :=
  ⟨workers, workers⟩

/-- A worker offers to terminate; true if it was the last one.  The count wraps. -/
def offer (t : Terminator) : Bool × Terminator :=
  (t.busy == 1, { t with busy := (t.busy + (wordValues - 1)) % wordValues })

/-- A worker that has offered looks again: true if nobody is busy, otherwise it takes its offer
back. -/
def reconsider (t : Terminator) : Except Fault (Bool × Terminator) :=
  if t.busy = 0 then pure (true, t)
  else do
    let busy ← Word.add t.busy 1
    pure (false, { t with busy })

/-- Both halves of an attempt, with no other worker between them.  A worker on its own has nobody to
wait for. -/
def tryTerminate (t : Terminator) : Except Fault (Bool × Terminator) :=
  if t.workers = 1 then pure (true, t)
  else
    match t.offer with
    | (true, t) => pure (true, t)
    | (false, t) => t.reconsider

end Terminator

end MarkCompact
