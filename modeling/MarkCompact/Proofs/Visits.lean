import MarkCompact.Proofs.Listings

/-!
# Walks that a visitor can stop

The walk over a range visits the objects that start in it and do not reach past its end, until the
visitor does not want more.  `Visits` says what comes of that for any visitor: one that keeps a
state, stops when it likes, and can fail.  A visitor that stops says why: it is full, or the object
does not fit.  One that says that the walk is complete is refused.

A range may start and end at any byte; it stands for the words from that of its first byte up to
that of its end.  A visitor that always wants more can be sent over a range in two parts: the second
part goes on at the place that the first one names, and the objects at the border are visited once.

Main statement: `iterate_visits`.
-/

namespace MarkCompact

variable {objs os : List Span} {o : Span} {a b c : ℕ}

/-! ## Visitors -/

section

variable {σ : Type} {visit : Run → StateT σ (Except Fault) WalkStatus} {runs : List Run}
  {done : WalkOutcome}

/-- The visitor visits each of the runs and wants more after each. -/
inductive Passes (visit : Run → StateT σ (Except Fault) WalkStatus) : σ → List Run → σ → Prop
  | nil (s : σ) : Passes visit s [] s
  | cons {s s₁ s₂ : σ} {run : Run} {rest : List Run} (more : visit run s = .ok (.incomplete, s₁))
      (next : Passes visit s₁ rest s₂) : Passes visit s (run :: rest) s₂

/-- What comes of visiting `runs` in the state `s`: all are visited, and the outcome is `done`; or
the visitor stops at one of them because it is full or the object does not fit, and the outcome is
its answer; or it stops with another answer, which is refused; or it fails. -/
inductive Visits (visit : Run → StateT σ (Except Fault) WalkStatus) (runs : List Run)
    (done : WalkOutcome) (s : σ) : Except Fault (WalkOutcome × σ) → Prop
  | finished {s' : σ} (passes : Passes visit s runs s') : Visits visit runs done s (.ok (done, s'))
  | stopped {front rest : List Run} {run : Run} {s₁ s' : σ} {status : WalkStatus}
      (split : runs = front ++ run :: rest) (passes : Passes visit s front s₁)
      (answer : visit run s₁ = .ok (status, s'))
      (stops : status = .full ∨ status = .wouldOverflow) :
      Visits visit runs done s (.ok (⟨status, none⟩, s'))
  | refused {front rest : List Run} {run : Run} {s₁ s' : σ} (split : runs = front ++ run :: rest)
      (passes : Passes visit s front s₁) (answer : visit run s₁ = .ok (.complete, s')) :
      Visits visit runs done s (.error .stoppedComplete)
  | failed {front rest : List Run} {run : Run} {s₁ : σ} {fault : Fault}
      (split : runs = front ++ run :: rest) (passes : Passes visit s front s₁)
      (answer : visit run s₁ = .error fault) : Visits visit runs done s (.error fault)

/-- One more run in front, after which the visitor wants more. -/
lemma Visits.cons {run : Run} {s s₁ : σ} {result : Except Fault (WalkOutcome × σ)}
    (more : visit run s = .ok (.incomplete, s₁)) (h : Visits visit runs done s₁ result) :
    Visits visit (run :: runs) done s result := by
  have hsplit {front rest : List Run} {next : Run} (split : runs = front ++ next :: rest) :
      run :: runs = (run :: front) ++ next :: rest := by
    rw [split, List.cons_append]
  cases h with
  | finished passes => exact .finished (.cons more passes)
  | stopped split passes answer stops =>
    exact .stopped (hsplit split) (.cons more passes) answer stops
  | refused split passes answer => exact .refused (hsplit split) (.cons more passes) answer
  | failed split passes answer => exact .failed (hsplit split) (.cons more passes) answer

end

section

variable {σ ε : Type}

/-- The visitor always wants more. -/
def NeverStops (visit : Run → StateT σ (Except ε) WalkStatus) : Prop :=
  ∀ run s status s', visit run s = .ok (status, s') → status = .incomplete

lemma visitRuns_cons {α : Type} (visit : α → StateT σ (Except ε) WalkStatus) (done : WalkOutcome)
    (run : α) (runs : List α) (s : σ) :
    visitRuns visit done (run :: runs) s = visit run s >>= fun answer =>
      if answer.1 = .incomplete then visitRuns visit done runs answer.2
      else .ok (⟨answer.1, none⟩, answer.2) := by
  refine congrArg (visit run s >>= ·) (funext fun ⟨status, s'⟩ => ?_)
  cases status <;> rfl

/-- A visitor that always wants more goes on with what is left. -/
lemma NeverStops.visitRuns_append {visit : Run → StateT σ (Except ε) WalkStatus}
    (h : NeverStops visit) (done done' : WalkOutcome) (runs runs' : List Run) :
    (visitRuns visit done runs >>= fun _ => visitRuns visit done' runs')
      = visitRuns visit done' (runs ++ runs') := by
  induction runs with
  | nil => rfl
  | cons run rest ih =>
    funext s
    show (visitRuns visit done (run :: rest) s >>= fun p => visitRuns visit done' runs' p.2) = _
    rw [List.cons_append, visitRuns_cons, visitRuns_cons]
    cases answer : visit run s with
    | error fault => rfl
    | ok result =>
      obtain ⟨status, s'⟩ := result
      obtain rfl := h run s status s' answer
      exact congrFun ih s'

end

/-! ## Refused answers -/

section

variable {σ : Type} {visit : Run → StateT σ (Except Fault) WalkStatus}

lemma refuseComplete_eq (visit : Run → StateT σ (Except Fault) WalkStatus) (run : Run) (s : σ) :
    refuseComplete visit run s = visit run s >>= fun answer =>
      if answer.1 = .complete then .error .stoppedComplete else .ok answer := by
  refine congrArg (visit run s >>= ·) (funext fun ⟨status, s'⟩ => ?_)
  cases status <;> rfl

/-- A visitor that always wants more is never refused. -/
lemma NeverStops.refuseComplete_eq (h : NeverStops visit) : refuseComplete visit = visit := by
  funext run s
  rw [MarkCompact.refuseComplete_eq]
  cases answer : visit run s with
  | error fault => rfl
  | ok result =>
    obtain ⟨status, s'⟩ := result
    obtain rfl := h run s status s' answer
    rfl

lemma visitRuns_visits (visit : Run → StateT σ (Except Fault) WalkStatus) (runs : List Run)
    (done : WalkOutcome) (s : σ) :
    Visits visit runs done s (visitRuns (refuseComplete visit) done runs s) := by
  induction runs generalizing s with
  | nil => exact .finished (.nil s)
  | cons run rest ih =>
    rw [visitRuns_cons, refuseComplete_eq]
    cases answer : visit run s with
    | error fault => exact .failed (List.nil_append _).symm (.nil s) answer
    | ok result =>
      obtain ⟨status, s'⟩ := result
      cases status with
      | incomplete => exact .cons answer (ih s')
      | complete => exact .refused (List.nil_append _).symm (.nil s) answer
      | full => exact .stopped (List.nil_append _).symm (.nil s) answer (Or.inl rfl)
      | wouldOverflow => exact .stopped (List.nil_append _).symm (.nil s) answer (Or.inr rfl)

end

/-! ## Ranges -/

/-- How a walk from word `a` to word `b` ends that is not stopped: all objects that start in the
range end in it, or one reaches past its end. -/
inductive RangeEnd (objs : List Span) (e : Extent) (a b : ℕ) : WalkOutcome → Prop
  | complete (whole : ∀ o, StartsIn objs a b o → o.past ≤ b) :
      RangeEnd objs e a b ⟨.complete, some (e.addr b)⟩
  | straddler {o : Span} (mem : StartsIn objs a b o) (lt_past : b < o.past) :
      RangeEnd objs e a b ⟨.incomplete, some (e.addr o.start)⟩

/-- The objects of a range are those in front of a word `s`, which end in the range, and at most one
that starts at `s` and reaches past the end of the range. -/
lemma exists_source (hsep : Separate objs) (hab : a ≤ b) : ∃ s os straddlers, a ≤ s ∧ s ≤ b
    ∧ Lists (StartsIn objs a s) os ∧ (∀ o ∈ os, o.past ≤ b) ∧ Lists (StartsIn objs s b) straddlers
    ∧ ((s = b ∧ straddlers = []) ∨ ∃ o, s = o.start ∧ straddlers = [o] ∧ b < o.past) := by
  by_cases hex : ∃ o, StartsIn objs a b o ∧ b < o.past
  · obtain ⟨o, ⟨ho, h1, h2⟩, hpast⟩ := hex
    obtain ⟨os, hos⟩ := exists_lists hsep a o.start
    have hlast : Lists (StartsIn objs o.start b) [o] :=
      .cons hsep ho le_rfl h2 (fun j h1 h2 => by omega) (.nil fun j h1 h2 => by omega)
    refine ⟨o.start, os, [o], h1, h2.le, hos, fun o' ho' => ?_, hlast, Or.inr ⟨o, rfl, rfl, hpast⟩⟩
    obtain ⟨hin, -, hlt⟩ := (hos.mem_iff o').1 ho'
    rcases hsep.eq_or_apart hin ho with rfl | hap | hap <;> omega
  · obtain ⟨os, hos⟩ := exists_lists hsep a b
    refine ⟨b, os, [], hab, le_rfl, hos, fun o ho => ?_, .nil fun j h1 h2 => by omega,
      Or.inl ⟨rfl, rfl⟩⟩
    by_contra hlt
    exact hex ⟨o, (hos.mem_iff o).1 ho, not_le.1 hlt⟩

namespace MarkBitmap

variable {m : MarkBitmap} {σ : Type} {addr beg stop : ℕ}

/-! ## Ranges that start and end at any byte -/

/-- The word of the covered range that `addr` lies in. -/
def wordOf (m : MarkBitmap) (addr : ℕ) : ℕ :=
  (addr - m.covered.start) / bytesPerWord

@[simp] lemma wordOf_addr (m : MarkBitmap) (a : ℕ) : m.wordOf (m.covered.addr a) = a := by
  rw [wordOf, Extent.addr_eq, bytesPerWord, Nat.add_sub_cancel_left]
  exact Nat.mul_div_cancel_left a (by decide)

lemma addr_wordOf_le (hlow : m.covered.start ≤ addr) : m.covered.addr (m.wordOf addr) ≤ addr := by
  rw [Extent.addr_eq, wordOf, bytesPerWord]
  omega

lemma wordOf_mono (hle : beg ≤ stop) : m.wordOf beg ≤ m.wordOf stop :=
  Nat.div_le_div_right (Nat.sub_le_sub_right hle _)

lemma wordOf_le (hstop : stop ≤ m.covered.start + m.covered.size) :
    m.wordOf stop ≤ m.covered.words :=
  Nat.div_le_div_right (Nat.sub_le_iff_le_add'.2 hstop)

namespace Marks

lemma bitOf_eq_wordOf (h : m.Marks objs) (hlow : m.covered.start ≤ addr)
    (hhigh : addr ≤ m.covered.start + m.covered.size) : m.bitOf addr = .ok (m.wordOf addr) := by
  rw [bitOf, Extent.offset_eq_ok h.covered_lt hlow hhigh]
  rfl

/-- A walk in terms of the objects that start in its range. -/
lemma iterate_eq_over (h : m.Marks objs) (visit : Run → StateT σ (Except Fault) WalkStatus)
    (hbeg : m.covered.start ≤ beg) (hle : beg ≤ stop)
    (hstop : stop ≤ m.covered.start + m.covered.size)
    (hos : Lists (StartsIn objs (m.wordOf beg) (m.wordOf stop)) os) :
    m.iterate visit beg stop = .ok (visitRuns (refuseComplete visit)
      ((Walk.over m.covered (m.wordOf stop) os).outcome (m.covered.addr (m.wordOf stop)))
      (Walk.over m.covered (m.wordOf stop) os).runs) := by
  have hwords := h.objectsIn_eq_over (wordOf_mono hle) (wordOf_le hstop) hos
  rw [objectsIn, h.bitOf_addr ((wordOf_mono hle).trans (wordOf_le hstop)),
    h.bitOf_addr (wordOf_le hstop), ← h.bitOf_eq_wordOf hbeg (hle.trans hstop),
    ← h.bitOf_eq_wordOf (hbeg.trans hle) hstop] at hwords
  rw [iterate, objectsIn, hwords, ok_bind]
  rfl

end Marks

/-- A walk visits the objects that start in its range and end in it, in ascending order, until the
visitor stops.  If the visitor always wants more, a walk from the place that is named at the end
goes on as if there had been only one. -/
theorem iterate_visits (h : m.Marks objs) (hbeg : m.covered.start ≤ beg) (hle : beg ≤ stop)
    (hstop : stop ≤ m.covered.start + m.covered.size)
    (visit : Run → StateT σ (Except Fault) WalkStatus) :
    ∃ os done walk, m.iterate visit beg stop = .ok walk
      ∧ Lists (fun o => StartsIn objs (m.wordOf beg) (m.wordOf stop) o ∧ o.past ≤ m.wordOf stop) os
      ∧ RangeEnd objs m.covered (m.wordOf beg) (m.wordOf stop) done
      ∧ (∀ s, Visits visit (os.map (·.run m.covered)) done s (walk s))
      ∧ (NeverStops visit → ∀ past, stop ≤ past → past ≤ m.covered.start + m.covered.size →
        ∃ source rest whole, done.source = some source
          ∧ m.iterate visit source past = .ok rest
          ∧ m.iterate visit beg past = .ok whole
          ∧ (walk >>= fun _ => rest) = whole) := by
  have hab : m.wordOf beg ≤ m.wordOf stop := wordOf_mono hle
  obtain ⟨s, os, straddlers, has, hsb, hos, hpast, hstraddlers, hend⟩ :=
    exists_source h.separate hab
  have hall := hos.append hstraddlers has hsb
  have hmem := fun o => (hall.mem_iff o).symm
  have hwalk := h.iterate_eq_over visit hbeg hle hstop hall
  rw [Walk.over_append hpast] at hwalk
  have hover : ∀ o ∈ straddlers, ¬o.past ≤ m.wordOf stop := by
    rintro o ho
    rcases hend with ⟨-, rfl⟩ | ⟨o', -, rfl, hlt⟩
    · exact absurd ho List.not_mem_nil
    · rw [List.mem_singleton.1 ho]
      exact not_le.2 hlt
  have hruns : (Walk.over m.covered (m.wordOf stop) straddlers).runs = [] := by
    rw [Walk.over, List.filter_eq_nil_iff.2 fun o ho => by simpa using hover o ho, List.map_nil]
  rw [hruns, List.append_nil] at hwalk
  refine ⟨os, _, _, hwalk, ⟨hos.ascending, fun o => ?_⟩, ?_, fun s => visitRuns_visits _ _ _ s, ?_⟩
  · rw [hmem o, List.mem_append]
    constructor
    · exact fun ho => ⟨Or.inl ho, hpast o ho⟩
    · rintro ⟨ho | ho, hle⟩
      · exact ho
      · exact absurd hle (hover o ho)
  · rcases hend with ⟨-, rfl⟩ | ⟨o, -, rfl, hlt⟩
    · refine .complete fun o ho => ?_
      rw [hmem o, List.append_nil] at ho
      exact hpast o ho
    · simp only [Walk.over, Walk.outcome, List.find?_cons_of_pos, hlt, decide_true, Option.map_some]
      exact .straddler ((hmem o).2 (by simp)) hlt
  · intro hnever past hbehind hroom
    have hbc : m.wordOf stop ≤ m.wordOf past := wordOf_mono hbehind
    obtain ⟨os', hos'⟩ := exists_lists h.separate s (m.wordOf past)
    have hlow : m.covered.start ≤ m.covered.addr s := Nat.le_add_right _ _
    have hsource : m.covered.addr s ≤ past :=
      (Extent.addr_le_addr.2 (hsb.trans hbc)).trans
        (addr_wordOf_le ((hbeg.trans hle).trans hbehind))
    have hlist : Lists (StartsIn objs (m.wordOf (m.covered.addr s)) (m.wordOf past)) os' := by
      rwa [wordOf_addr]
    have hrest := h.iterate_eq_over visit hlow hsource hroom hlist
    have hwhole := h.iterate_eq_over visit hbeg (hle.trans hbehind) hroom
      (hos.append hos' has (hsb.trans hbc))
    rw [Walk.over_append fun o ho => (hpast o ho).trans hbc, hnever.refuseComplete_eq] at hwhole
    rw [hnever.refuseComplete_eq] at hrest ⊢
    refine ⟨m.covered.addr s, _, _, ?_, hrest, hwhole, hnever.visitRuns_append ..⟩
    rcases hend with ⟨rfl, rfl⟩ | ⟨o, rfl, rfl, hlt⟩
    · rfl
    · simp [Walk.over, Walk.outcome, hlt]

/-- Records what it visits. -/
def record (run : Run) : StateT (List Run) (Except Fault) WalkStatus := fun met =>
  .ok (.incomplete, met ++ [run])

/-- Two neighbours, of which the second one reaches past the end of the range, its line and the next
line of bits.  The range ends inside a word. -/
theorem iterate_visits_neighbours : NeverStops record
    ∧ ∃ m : MarkBitmap, m.Marks [⟨4, 125⟩, ⟨3, 1⟩] ∧ m.covered = ⟨4096, 1040⟩
    ∧ ∃ walk rest whole, m.iterate record 4096 4613 = .ok walk
      ∧ Visits record [⟨4120, 1⟩] ⟨.incomplete, some 4128⟩ [] (walk [])
      ∧ m.iterate record 4128 5136 = .ok rest
      ∧ m.iterate record 4096 5136 = .ok whole
      ∧ (walk >>= fun _ => rest) = whole := by
  have hnever : NeverStops record := by
    rintro run s status s' ⟨⟩
    rfl
  have h₀ : (unmarked ⟨4096, 1040⟩).Marks [] := marks_unmarked (by decide)
  obtain ⟨m₁, -, h₁, hcovered₁⟩ :=
    h₀.mark_eq (o := ⟨3, 1⟩) ⟨by simp, by simp⟩ (by decide) (by decide)
  obtain ⟨m, -, h, hcovered⟩ :=
    h₁.mark_eq (o := ⟨4, 125⟩) ⟨by simp, by simp [Span.Apart, Span.past]⟩
    (by rw [hcovered₁]; decide) (by rw [hcovered₁]; decide)
  replace hcovered : m.covered = ⟨4096, 1040⟩ := hcovered.trans hcovered₁
  refine ⟨hnever, m, h, hcovered, ?_⟩
  have hfirst : m.covered.start ≤ 4096 := by simp [hcovered]
  have hroom : 4613 ≤ m.covered.start + m.covered.size := by simp [hcovered]
  obtain ⟨os, done, walk, hwalk, hos, hend, hvisits, hresume⟩ :=
    iterate_visits h hfirst (by decide) hroom record
  obtain ⟨source, rest, whole, hsource, hrest, hwhole, heq⟩ :=
    hresume hnever 5136 (by decide) (by simp [hcovered])
  have hbeg : m.wordOf 4096 = 0 := by rw [wordOf, hcovered]; rfl
  have hstop : m.wordOf 4613 = 64 := by rw [wordOf, hcovered]; rfl
  rw [hbeg, hstop] at hos hend
  have hlist : Lists (fun o => StartsIn [⟨4, 125⟩, ⟨3, 1⟩] 0 64 o ∧ o.past ≤ 64) [⟨3, 1⟩] :=
    ⟨by simp, fun o => by
      simp only [StartsIn, List.mem_cons, List.not_mem_nil, or_false]
      grind [Span.past]⟩
  obtain rfl := hos.unique hlist
  rw [hcovered] at hend hvisits
  obtain rfl : done = ⟨.incomplete, some 4128⟩ := by
    cases hend with
    | complete whole => exact absurd (whole ⟨4, 125⟩ (by simp [StartsIn])) (by decide)
    | @straddler o mem lt_past =>
      obtain ⟨ho, -, -⟩ := mem
      simp only [List.mem_cons, List.not_mem_nil, or_false] at ho
      rcases ho with rfl | rfl
      · rfl
      · exact absurd lt_past (by decide)
  obtain rfl := Option.some.inj hsource
  exact ⟨walk, rest, whole, hwalk, hvisits [], hrest, hwhole, heq⟩

/-- Says of every run that the walk is complete. -/
def claimComplete (_ : Run) : StateT (List Run) (Except Fault) WalkStatus := fun met =>
  .ok (.complete, met)

/-- A walk up to byte 5 of a word names the word and not the byte, and a visitor that claims that
the walk is complete is refused, so that nothing is returned. -/
theorem iterate_rounds_and_refuses : ∃ m : MarkBitmap, m.Marks [⟨3, 2⟩] ∧ m.covered = ⟨4096, 512⟩
    ∧ (∃ walk, m.iterate record 4096 4141 = .ok walk
      ∧ walk [] = .ok (⟨.complete, some 4136⟩, [⟨4120, 2⟩])
      ∧ walk [] ≠ .ok (⟨.complete, some 4141⟩, [⟨4120, 2⟩]))
    ∧ ∃ walk, m.iterate claimComplete 4096 4608 = .ok walk
      ∧ claimComplete ⟨4120, 2⟩ [] = .ok (.complete, [])
      ∧ walk [] = .error .stoppedComplete
      ∧ ∀ source, walk [] ≠ .ok (⟨.complete, source⟩, []) := by
  have h₀ : (unmarked ⟨4096, 512⟩).Marks [] := marks_unmarked (by decide)
  obtain ⟨m, -, h, hcovered⟩ := h₀.mark_eq (o := ⟨3, 2⟩) ⟨by simp, by simp⟩ (by decide) (by decide)
  replace hcovered : m.covered = ⟨4096, 512⟩ := hcovered
  have hlist : ∀ b, 4 ≤ b → Lists (StartsIn [⟨3, 2⟩] 0 b) [⟨3, 2⟩] := fun b hb =>
    ⟨by simp, fun o => by
      simp only [StartsIn, List.mem_singleton]
      grind⟩
  have hbeg : m.wordOf 4096 = 0 := by rw [wordOf, hcovered]; rfl
  have hodd : m.wordOf 4141 = 5 := by rw [wordOf, hcovered]; rfl
  have hlast : m.wordOf 4608 = 64 := by rw [wordOf, hcovered]; rfl
  have hfirst : m.covered.start ≤ 4096 := by simp [hcovered]
  have hroom : 4608 ≤ m.covered.start + m.covered.size := by simp [hcovered]
  have hrecord := h.iterate_eq_over record hfirst (by decide) (le_trans (by decide) hroom)
    (hodd ▸ hbeg ▸ hlist 5 (by decide))
  have hclaim := h.iterate_eq_over claimComplete hfirst (by decide) hroom
    (hlast ▸ hbeg ▸ hlist 64 (by decide))
  rw [hodd, hcovered] at hrecord
  rw [hlast, hcovered] at hclaim
  refine ⟨m, h, hcovered, ⟨_, hrecord, rfl, ?_⟩, _, hclaim, rfl, rfl, fun source => ?_⟩
  · rintro ⟨⟩
  · rintro ⟨⟩

end MarkBitmap

end MarkCompact
