import MarkCompact.WorkQueue

/-!
# No task is lost

The view of the work queues is the list of all tasks that are left, up to order.  Putting a task in
adds it; every way to obtain a task takes out exactly the task that is obtained, whatever moves
along between the queues: `tasks_pop`, `tasks_takeShared` and `tasks_steal`.
-/

namespace MarkCompact

namespace WorkQueues

open List

variable {α : Type}

/-- All tasks that are left. -/
def tasks (q : WorkQueues α) : List α :=
  q.shared.toList ++ q.own.flatten

/-! ## One stack among several -/

theorem stackOf_eq_ok_iff {q : WorkQueues α} {w : Nat} {stack : List α} :
    q.stackOf w = .ok stack ↔ q.own[w]? = some stack := by
  unfold stackOf
  cases q.own[w]? <;> simp [pure, Except.pure, throw, throwThe, MonadExceptOf.throw]

theorem lt_of_stackOf {q : WorkQueues α} {w : Nat} {stack : List α} (h : q.stackOf w = .ok stack) :
    w < q.own.length :=
  (List.getElem?_eq_some_iff.1 (stackOf_eq_ok_iff.1 h)).1

/-- Replacing a stack replaces its tasks. -/
theorem flatten_set_perm {rows : List (List α)} {i : Nat} {old : List α} (new : List α)
    (h : rows[i]? = some old) : old ++ (rows.set i new).flatten ~ new ++ rows.flatten := by
  induction rows generalizing i with
  | nil => simp at h
  | cons stack rest ih =>
    cases i with
    | zero =>
      simp only [getElem?_cons_zero, Option.some.injEq] at h
      subst h
      simpa using perm_append_comm_assoc ..
    | succ i =>
      have rest_perm := ih (by simpa using h)
      simp only [set_cons_succ, flatten_cons]
      exact (perm_append_comm_assoc ..).trans
        ((rest_perm.append_left stack).trans (perm_append_comm_assoc ..))

/-- Cutting a stack takes out what is cut off. -/
theorem flatten_set_cut {rows : List (List α)} {i : Nat} {upper lower : List α}
    (h : rows[i]? = some (upper ++ lower)) :
    upper ++ (rows.set i lower).flatten ~ rows.flatten := by
  have replaced := flatten_set_perm lower h
  rw [append_assoc] at replaced
  exact (perm_append_left_iff lower).1 ((perm_append_comm_assoc ..).trans replaced)

/-- Tasks put on a stack are added. -/
theorem flatten_modify_perm {rows : List (List α)} {i : Nat} (new : List α)
    (h : i < rows.length) : (rows.modify i (new ++ ·)).flatten ~ new ++ rows.flatten := by
  induction rows generalizing i with
  | nil => simp at h
  | cons stack rest ih =>
    cases i with
    | zero => simp
    | succ i =>
      have rest_perm := ih (i := i) (by simpa using h)
      simp only [modify_succ_cons, flatten_cons]
      exact (rest_perm.append_left stack).trans (perm_append_comm_assoc ..)

/-! ## Putting tasks in -/

theorem tasks_pushShared (q : WorkQueues α) (a : α) : (q.pushShared a).tasks ~ a :: q.tasks := by
  simp only [tasks, pushShared, Fifo.toList_push, append_assoc]
  exact perm_middle

theorem tasks_push {q q' : WorkQueues α} {w : Nat} {a : α} (h : q.push w a = .ok q') :
    q'.tasks ~ a :: q.tasks := by
  obtain ⟨stack, found, h⟩ := bind_eq_ok_iff.1 h
  obtain rfl := pure_eq_ok_iff.1 h
  have replaced := flatten_set_perm (a :: stack) (stackOf_eq_ok_iff.1 found)
  have added : (q.own.set w (a :: stack)).flatten ~ a :: q.own.flatten :=
    (perm_append_left_iff stack).1 (replaced.trans (by simpa using perm_middle.symm))
  exact (added.append_left _).trans perm_middle

/-! ## Obtaining tasks -/

theorem tasks_pop {q q' : WorkQueues α} {w : Nat} {obtained : Option α}
    (h : q.pop w = .ok (obtained, q')) : obtained.toList ++ q'.tasks ~ q.tasks := by
  obtain ⟨stack, found, h⟩ := bind_eq_ok_iff.1 h
  cases stack with
  | nil =>
    cases pure_eq_ok_iff.1 h
    simp
  | cons a rest =>
    cases pure_eq_ok_iff.1 h
    have cut : [a] ++ (q.own.set w rest).flatten ~ q.own.flatten :=
      flatten_set_cut (stackOf_eq_ok_iff.1 found)
    exact (perm_append_comm_assoc ..).trans (cut.append_left _)

theorem tasks_popShared (q : WorkQueues α) :
    q.popShared.1.toList ++ q.popShared.2.tasks = q.tasks := by
  unfold popShared
  split
  · simp
  · rename_i a shared taken
    simp [tasks, Fifo.toList_of_pop? taken]

/-- A worker that keeps the first of some tasks loses none of them. -/
theorem tasks_keepFirst (q : WorkQueues α) {w : Nat} (hw : w < q.own.length) (batch : List α) :
    (q.keepFirst w batch).1.toList ++ (q.keepFirst w batch).2.tasks ~ batch ++ q.tasks := by
  cases batch with
  | nil => simp [keepFirst]
  | cons a rest =>
    simp only [keepFirst, Option.toList_some, tasks, cons_append]
    exact (((flatten_modify_perm rest hw).append_left _).trans (perm_append_comm_assoc ..)).cons a

theorem tasks_takeShared {q q' : WorkQueues α} {w : Nat} {obtained : Option α}
    (h : q.takeShared w = .ok (obtained, q')) : obtained.toList ++ q'.tasks ~ q.tasks := by
  obtain ⟨stack, found, h⟩ := bind_eq_ok_iff.1 h
  generalize sharedBatch q.taken q.shared.toList.length = n at h
  let rest : WorkQueues α :=
    { q with shared := (q.shared.take n).2, taken := q.taken + (q.shared.take n).1.length }
  have kept := tasks_keepFirst rest (lt_of_stackOf found) (q.shared.take n).1
  have result : rest.keepFirst w (q.shared.take n).1 = (obtained, q') := pure_eq_ok_iff.1 h
  rw [result] at kept
  simpa only [rest, tasks, ← append_assoc, Fifo.toList_take] using kept

theorem tasks_steal {q q' : WorkQueues α} {w : Nat} {obtained : Option α}
    (h : q.steal w = .ok (obtained, q')) : obtained.toList ++ q'.tasks ~ q.tasks := by
  obtain ⟨_, own, h⟩ := bind_eq_ok_iff.1 h
  split at h
  · cases pure_eq_ok_iff.1 h
    simp
  · rename_i v _
    obtain ⟨stack, found, h⟩ := bind_eq_ok_iff.1 h
    generalize stack.length - min stealLimit ((stack.length + 1) / 2) = left at h
    have kept := tasks_keepFirst { q with own := q.own.set v (stack.take left) }
      (by simpa using lt_of_stackOf own) (stack.drop left)
    rw [pure_eq_ok_iff.1 h] at kept
    have replaced := flatten_set_perm (stack.take left) (stackOf_eq_ok_iff.1 found)
    have halves : stack = stack.take left ++ stack.drop left := by simp
    rw [halves, append_assoc, ← halves] at replaced
    have cut := (perm_append_left_iff _).1 replaced
    exact kept.trans ((perm_append_comm_assoc ..).trans (cut.append_left _))

end WorkQueues

end MarkCompact
