import Mathlib.Data.List.Forall2
import Mathlib.Data.Nat.Notation
import MarkCompact.Heap
import MarkCompact.MarkBitmap.Walk

/-!
# Running actions on a heap

`Runs act h post` says that the action succeeds on heap `h` and that its answer and the heap it
leaves satisfy `post`.  Each way to build an action has an equation for `Runs`, so the run of a
composed action unfolds into the runs of its steps; a step with a lemma of its own is left by
`Runs.bind`.

`Leads may act h post` is weaker: the action may also end with one of the faults in `may`.  It is
for actions that call on a host of which nothing is known, and it unfolds in the same way.
-/

namespace MarkCompact

namespace Heap

variable {μ α β : Type} {h : Heap μ}

/-- The action succeeds on `h`, with an answer and a heap that satisfy `post`. -/
def Runs (act : HeapAction μ α) (h : Heap μ) (post : α → Heap μ → Prop) : Prop :=
  ∃ a h', act h = .ok (a, h') ∧ post a h'

variable {act : HeapAction μ α} {next : α → HeapAction μ β} {post post' : α → Heap μ → Prop}

lemma Runs.mono (hrun : Runs act h post) (hpost : ∀ a h', post a h' → post' a h') :
    Runs act h post' := by
  obtain ⟨a, h', heq, ha⟩ := hrun
  exact ⟨a, h', heq, hpost a h' ha⟩

/-- What an action that succeeded has run to. -/
lemma Runs.of_eq {a : α} {h' : Heap μ} (hrun : Runs act h post) (heq : act h = .ok (a, h')) :
    post a h' := by
  obtain ⟨_, _, heq', hpost⟩ := hrun
  cases heq'.symm.trans heq
  exact hpost

@[simp] lemma runs_bind {post : β → Heap μ → Prop} :
    Runs (act >>= next) h post ↔ Runs act h fun a h' => Runs (next a) h' post := by
  constructor
  · rintro ⟨b, h'', heq, hpost⟩
    cases hact : act h with
    | error fault => simp [bind, StateT.bind, Except.bind, hact] at heq
    | ok result =>
      refine ⟨result.1, result.2, hact, b, h'', ?_, hpost⟩
      simpa [bind, StateT.bind, Except.bind, hact] using heq
  · rintro ⟨a, h', heq, b, h'', heq', hpost⟩
    refine ⟨b, h'', ?_, hpost⟩
    simp only [bind, StateT.bind, Except.bind, heq]
    exact heq'

/-- A first step that is known to end in `post` leaves the rest to be run from there. -/
lemma Runs.bind {goal : β → Heap μ → Prop} (hrun : Runs act h post)
    (hnext : ∀ a h', post a h' → Runs (next a) h' goal) : Runs (act >>= next) h goal :=
  runs_bind.2 (hrun.mono hnext)

@[simp] lemma runs_pure {a : α} : Runs (pure a) h post ↔ post a h := by
  constructor
  · rintro ⟨a', h', heq, hpost⟩
    cases heq
    exact hpost
  · exact fun hpost => ⟨a, h, rfl, hpost⟩

lemma runs_forM_nil {f : α → HeapAction μ PUnit} {post : PUnit → Heap μ → Prop} :
    Runs (List.forM [] f) h post ↔ post ⟨⟩ h :=
  runs_pure

lemma runs_forM_cons {f : α → HeapAction μ PUnit} {a : α} {rest : List α}
    {post : PUnit → Heap μ → Prop} :
    Runs (List.forM (a :: rest) f) h post ↔ Runs (f a) h fun _ h' => Runs (rest.forM f) h' post :=
  runs_bind

/-- Steps that keep an invariant are taken one after the other, and each answer is related to what
it is the answer for. -/
lemma runs_mapM {f : α → HeapAction μ β} {xs : List α} (inv : Heap μ → Prop) (rel : α → β → Prop)
    (hinv : inv h) (hstep : ∀ x ∈ xs, ∀ h, inv h → Runs (f x) h fun y h' => rel x y ∧ inv h') :
    Runs (xs.mapM f) h fun ys h' => List.Forall₂ rel xs ys ∧ inv h' := by
  induction xs generalizing h with
  | nil =>
    rw [List.mapM_nil]
    exact runs_pure.2 ⟨.nil, hinv⟩
  | cons x rest ih =>
    rw [List.mapM_cons]
    refine (hstep x List.mem_cons_self h hinv).bind fun y h₁ => ?_
    rintro ⟨hrel, hinv₁⟩
    refine (ih hinv₁ fun x' hx' => hstep x' (List.mem_cons_of_mem _ hx')).bind fun ys h₂ => ?_
    rintro ⟨hrels, hinv₂⟩
    exact runs_pure.2 ⟨.cons hrel hrels, hinv₂⟩

@[simp] lemma runs_get {post : Heap μ → Heap μ → Prop} : Runs get h post ↔ post h h :=
  runs_pure (a := h)

@[simp] lemma runs_set {h' : Heap μ} {post : PUnit → Heap μ → Prop} :
    Runs (set h') h post ↔ post ⟨⟩ h' := by
  constructor
  · rintro ⟨a, h'', heq, hpost⟩
    cases heq
    exact hpost
  · exact fun hpost => ⟨⟨⟩, h', rfl, hpost⟩

@[simp] lemma runs_modify {f : Heap μ → Heap μ} {post : PUnit → Heap μ → Prop} :
    Runs (modify f) h post ↔ post ⟨⟩ (f h) := by
  constructor
  · rintro ⟨a, h'', heq, hpost⟩
    cases heq
    exact hpost
  · exact fun hpost => ⟨⟨⟩, f h, rfl, hpost⟩

lemma runs_check {result : Except Fault α} :
    Runs (check result) h post ↔ ∃ a, result = .ok a ∧ post a h := by
  cases result with
  | error fault =>
    constructor
    · rintro ⟨a, h', heq, _⟩
      cases heq
    · rintro ⟨a, heq, _⟩
      cases heq
  | ok a =>
    constructor
    · rintro ⟨a', h', heq, hpost⟩
      cases heq
      exact ⟨a, rfl, hpost⟩
    · rintro ⟨a', heq, hpost⟩
      cases heq
      exact ⟨a, h, rfl, hpost⟩

@[simp] lemma runs_check_ok {a : α} : Runs (check (.ok a)) h post ↔ post a h := by
  rw [runs_check]
  constructor
  · rintro ⟨a', heq, hpost⟩
    cases heq
    exact hpost
  · exact fun hpost => ⟨a, rfl, hpost⟩

@[simp] lemma runs_report {record : LogRecord} {post : Unit → Heap μ → Prop} :
    Runs (report record) h post ↔ post () { h with log := record :: h.log } :=
  runs_modify

lemma runs_onTable {f : RegionTable → Except Fault RegionTable} {t : RegionTable}
    {post : Unit → Heap μ → Prop} (hf : f h.table = .ok t) :
    Runs (onTable f) h post ↔ post () { h with table := t } := by
  simp only [onTable, runs_bind, runs_get, hf, runs_check_ok, runs_set]

lemma space_eq {i : ℕ} {s : Space} (hs : h.spaces[i]? = some s) : h.space i = .ok s := by
  rw [space, hs]
  rfl

lemma runs_onSpace {i : ℕ} {f : Space → Except Fault Space} {s s' : Space}
    {post : Unit → Heap μ → Prop} (hs : h.spaces[i]? = some s) (hf : f s = .ok s') :
    Runs (onSpace i f) h post ↔ post () (h.setSpace i s') := by
  simp only [onSpace, runs_bind, runs_get, space_eq hs, hf, runs_check_ok, runs_set]

lemma runs_onImage {f : μ → Except Fault μ} {image : μ} {post : Unit → Heap μ → Prop}
    (hf : f h.image = .ok image) : Runs (onImage f) h post ↔ post () { h with image } := by
  simp only [onImage, runs_bind, runs_get, hf, runs_check_ok, runs_set]

lemma runs_onImage_pure {f : μ → μ} {post : Unit → Heap μ → Prop} :
    Runs (onImage fun image => pure (f image)) h post ↔ post () { h with image := f h.image } :=
  runs_onImage rfl

/-! ## Actions that may fail -/

/-- The action ends on `h` with an answer and a heap that satisfy `post`, or with a fault in
`may`. -/
def Leads (may : Fault → Prop) (act : HeapAction μ α) (h : Heap μ)
    (post : α → Heap μ → Prop) : Prop :=
  match act h with
  | .ok (a, h') => post a h'
  | .error fault => may fault

variable {may : Fault → Prop}

/-- Nothing is said of where an action leads. -/
lemma leads_true (act : HeapAction μ α) (h : Heap μ) :
    Leads (fun _ => True) act h fun _ _ => True := by
  unfold Leads
  split <;> trivial

lemma Runs.leads (hrun : Runs act h post) : Leads may act h post := by
  obtain ⟨a, h', heq, hpost⟩ := hrun
  rw [Leads, heq]
  exact hpost

/-- An action that leads somewhere and must not fail runs. -/
lemma Leads.runs (hlead : Leads may act h post) (hnever : ∀ fault, ¬may fault) :
    Runs act h post := by
  unfold Leads at hlead
  split at hlead
  · rename_i a h' heq
    exact ⟨a, h', heq, hlead⟩
  · exact absurd hlead (hnever _)

lemma Leads.mono (hlead : Leads may act h post) (hpost : ∀ a h', post a h' → post' a h') :
    Leads may act h post' := by
  unfold Leads at hlead ⊢
  split at hlead
  · exact hpost _ _ hlead
  · exact hlead

lemma Leads.widen {may' : Fault → Prop} (hlead : Leads may act h post)
    (hmay : ∀ fault, may fault → may' fault) :
    Leads may' act h post := by
  unfold Leads at hlead ⊢
  split at hlead
  · exact hlead
  · exact hmay _ hlead

/-- What holds whatever the action faults with may be added to what it leads to. -/
lemma Leads.and {any : Fault → Prop} (hlead : Leads may act h post)
    (hlead' : Leads any act h post') :
    Leads may act h fun a h' => post a h' ∧ post' a h' := by
  unfold Leads at hlead hlead' ⊢
  split at hlead
  case h_1 heq =>
    rw [heq] at hlead'
    exact ⟨hlead, hlead'⟩
  case h_2 => exact hlead

/-- What an action leads to is what it answers. -/
lemma Leads.with_eq (hlead : Leads may act h post) :
    Leads may act h fun a h' => post a h' ∧ act h = .ok (a, h') := by
  unfold Leads at hlead ⊢
  split
  case h_1 heq =>
    rw [heq] at hlead
    exact ⟨hlead, heq⟩
  case h_2 heq =>
    rw [heq] at hlead
    exact hlead

/-- What an action that succeeded has led to. -/
lemma Leads.of_eq {a : α} {h' : Heap μ} (hlead : Leads may act h post) (heq : act h = .ok (a, h')) :
    post a h' := by
  rw [Leads, heq] at hlead
  exact hlead

@[simp] lemma leads_bind {post : β → Heap μ → Prop} :
    Leads may (act >>= next) h post ↔ Leads may act h fun a h' => Leads may (next a) h' post := by
  unfold Leads
  cases hact : act h with
  | error fault => simp [bind, StateT.bind, Except.bind, hact]
  | ok result => simp [bind, StateT.bind, Except.bind, hact]

/-- A first step that runs to `post` leaves the rest to be led on from there. -/
lemma Runs.bind_leads {goal : β → Heap μ → Prop} (hrun : Runs act h post)
    (hnext : ∀ a h', post a h' → Leads may (next a) h' goal) : Leads may (act >>= next) h goal :=
  leads_bind.2 (hrun.leads.mono hnext)

lemma leads_forM_cons {f : α → HeapAction μ PUnit} {a : α} {rest : List α}
    {post : PUnit → Heap μ → Prop} :
    Leads may (List.forM (a :: rest) f) h post ↔ Leads may (f a) h fun _ h' =>
      Leads may (rest.forM f) h' post :=
  leads_bind

@[simp] lemma leads_pure {a : α} : Leads may (pure a) h post ↔ post a h :=
  Iff.rfl

/-- A loop over the numbers below `k` keeps what each of its steps keeps. -/
lemma leads_forM_range {f : ℕ → HeapAction μ PUnit} {k : ℕ} (holds : ℕ → Heap μ → Prop)
    (hzero : holds 0 h)
    (hstep : ∀ n h', n < k → holds n h' → Leads may (f n) h' fun _ h'' => holds (n + 1) h'') :
    Leads may ((List.range k).forM f) h fun _ h' => holds k h' := by
  -- What is left to do is done one number at a time.
  have hloop : ∀ count n h', n + count = k → holds n h' →
      Leads may ((List.range' n count).forM f) h' fun _ h'' => holds k h'' := by
    intro count
    induction count with
    | zero =>
      intro n h' hn hholds
      exact hn ▸ hholds
    | succ count ih =>
      intro n h' hn hholds
      rw [List.range'_succ, leads_forM_cons]
      exact (hstep n h' (by omega) hholds).mono fun _ h'' => ih (n + 1) h'' (by omega)
  rw [List.range_eq_range']
  exact hloop k 0 h (Nat.zero_add k) hzero

/-- A loop whose steps do not fail does not fail. -/
lemma runs_forM_range {f : ℕ → HeapAction μ PUnit} {k : ℕ} (holds : ℕ → Heap μ → Prop)
    (hzero : holds 0 h)
    (hstep : ∀ n h', n < k → holds n h' → Runs (f n) h' fun _ h'' => holds (n + 1) h'') :
    Runs ((List.range k).forM f) h fun _ h' => holds k h' := by
  have hlead : Leads (fun _ => False) ((List.range k).forM f) h fun _ h' => holds k h' :=
    leads_forM_range holds hzero fun n h' hn hholds => (hstep n h' hn hholds).leads
  exact hlead.runs fun _ => id

@[simp] lemma leads_get {post : Heap μ → Heap μ → Prop} : Leads may get h post ↔ post h h :=
  Iff.rfl

@[simp] lemma leads_set {h' : Heap μ} {post : PUnit → Heap μ → Prop} :
    Leads may (set h') h post ↔ post ⟨⟩ h' :=
  Iff.rfl

@[simp] lemma leads_modify {f : Heap μ → Heap μ} {post : PUnit → Heap μ → Prop} :
    Leads may (modify f) h post ↔ post ⟨⟩ (f h) :=
  Iff.rfl

@[simp] lemma leads_check_ok {a : α} : Leads may (check (.ok a)) h post ↔ post a h :=
  Iff.rfl

@[simp] lemma leads_check_throw {fault : Fault} :
    Leads may (check (throw fault)) h post ↔ may fault :=
  Iff.rfl

/-- A check that succeeds hands its answer on. -/
lemma leads_check {result : Except Fault α} :
    Leads may (check result) h post ↔ (∀ a, result = .ok a → post a h) ∧ ∀ fault,
      result = .error fault → may fault := by
  cases result with
  | ok a => simp
  | error fault => exact ⟨fun h => ⟨by simp, by rintro _ ⟨⟩; exact h⟩, fun h => h.2 fault rfl⟩

@[simp] lemma leads_report {record : LogRecord} {post : Unit → Heap μ → Prop} :
    Leads may (report record) h post ↔ post () { h with log := record :: h.log } :=
  Iff.rfl

lemma leads_onTable {f : RegionTable → Except Fault RegionTable} {t : RegionTable}
    {post : Unit → Heap μ → Prop} (hf : f h.table = .ok t) :
    Leads may (onTable f) h post ↔ post () { h with table := t } := by
  simp only [onTable, leads_bind, leads_get, hf, leads_check_ok, leads_set]

lemma leads_onSpace {f : Space → Except Fault Space} {i : ℕ} {s s' : Space}
    {post : Unit → Heap μ → Prop} (hs : h.spaces[i]? = some s) (hf : f s = .ok s') :
    Leads may (onSpace i f) h post ↔ post () (h.setSpace i s') := by
  simp only [onSpace, leads_bind, leads_get, space_eq hs, leads_check_ok, hf, leads_set]

/-! ## Walks whose visitor acts on the heap -/

section

variable {σ : Type} {visit : Run → StateT σ (HeapAction μ) WalkStatus}
  {whole : WalkOutcome} {run : Run} {rest : List Run} {s : σ}

/-- The visitor may not say that the walk is complete. -/
lemma visitRuns_refuse_cons :
    visitRuns (refuseComplete visit) whole (run :: rest) s = visit run s >>= fun out =>
      match out.1 with
      | .incomplete => visitRuns (refuseComplete visit) whole rest out.2
      | .complete => throw .stoppedComplete
      | status => pure (⟨status, none⟩, out.2) := by
  funext h
  show ((visit run s h >>= _) >>= _ : Except Fault _) = visit run s h >>= _
  rw [bind_assoc]
  refine congrArg (visit run s h >>= ·) (funext fun ⟨⟨status, s'⟩, h'⟩ => ?_)
  cases status <;> rfl

end

end Heap

end MarkCompact
