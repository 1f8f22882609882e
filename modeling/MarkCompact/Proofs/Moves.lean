import MarkCompact.Proofs.Plans

/-!
# Words on the move

While compaction runs, some words of memory have already received what belongs there.
`p.location filled w` is where the live word `w` is: at its place if that is filled, where it was
otherwise.  `Moved` says that every live word is intact there, and that no live word was overwritten
before it had moved.

Main statements: `Moved.copy` (copying a run of words to its place), `Moved.update` (rewriting an
object that has arrived), `Moved.write` (rewriting a word at which no live word is).
-/

namespace MarkCompact

namespace Plan

variable {p : Plan} {content content' memory memory' : ℕ → ℕ} {filled filled' : ℕ → Prop} {o : Span}
  {d n s w x : ℕ}

open Classical in
/-- Where the live word `w` is while the words that satisfy `filled` have received their
contents. -/
noncomputable def location (p : Plan) (filled : ℕ → Prop) (w : ℕ) : ℕ :=
  if filled (p.forward w) then p.forward w else w

lemma location_of_filled (h : filled (p.forward w)) : p.location filled w = p.forward w :=
  if_pos h

lemma location_of_not_filled (h : ¬filled (p.forward w)) : p.location filled w = w :=
  if_neg h

/-- Every live word is intact at its location. -/
structure Moved (p : Plan) (content : ℕ → ℕ) (filled : ℕ → Prop) (memory : ℕ → ℕ) : Prop where
  /-- A live word whose own place has been filled with another one has gone. -/
  closed : ∀ w, Live p.objs w → filled w → filled (p.forward w)
  intact : ∀ w, Live p.objs w → memory (p.location filled w) = content w

/-- Live words are at different locations. -/
lemma location_injective (hp : p.Valid)
    (closed : ∀ w, Live p.objs w → filled w → filled (p.forward w)) (hx : Live p.objs x)
    (hw : Live p.objs w) (heq : p.location filled x = p.location filled w) : x = w := by
  by_cases hfx : filled (p.forward x) <;> by_cases hfw : filled (p.forward w)
  · rw [location_of_filled hfx, location_of_filled hfw] at heq
    exact hp.forward_injective hx hw heq
  · rw [location_of_filled hfx, location_of_not_filled hfw] at heq
    exact absurd (closed w hw (heq ▸ hfx)) hfw
  · rw [location_of_not_filled hfx, location_of_filled hfw] at heq
    exact absurd (closed x hx (heq ▸ hfw)) hfx
  · rw [location_of_not_filled hfx, location_of_not_filled hfw] at heq
    exact heq

namespace Moved

/-- Copying `n` live words from `s` on to their place at `d`, which may overlap them. -/
theorem copy (h : p.Moved content filled memory) (hp : p.Valid)
    (hlive : ∀ i, i < n → Live p.objs (s + i)) (hforward : ∀ i, i < n → p.forward (s + i) = d + i)
    (hempty : ∀ i, i < n → ¬filled (d + i))
    (hsafe : ∀ w, Live p.objs w → d ≤ w → w < d + n → filled (p.forward w) ∨ (s ≤ w ∧ w < s + n))
    (hfilled : ∀ x, filled' x ↔ filled x ∨ (d ≤ x ∧ x < d + n))
    (hmemory : ∀ x, memory' x = if d ≤ x ∧ x < d + n then memory (s + (x - d)) else memory x) :
    p.Moved content filled' memory' := by
  -- The words that are copied are those that belong into the range.
  have hsource : ∀ w, Live p.objs w → d ≤ p.forward w → p.forward w < d + n →
      w = s + (p.forward w - d) ∧ p.location filled w = w := by
    intro w hw h1 h2
    have hi : p.forward w - d < n := by omega
    have hplace := hforward _ hi
    have heq : w = s + (p.forward w - d) := hp.forward_injective hw (hlive _ hi) (by omega)
    refine ⟨heq, location_of_not_filled ?_⟩
    have := hempty _ hi
    rwa [show d + (p.forward w - d) = p.forward w by omega] at this
  refine ⟨fun w hw hfw => ?_, fun w hw => ?_⟩
  · rcases (hfilled w).1 hfw with hold | ⟨h1, h2⟩
    · exact (hfilled _).2 (Or.inl (h.closed w hw hold))
    · rcases hsafe w hw h1 h2 with hgone | ⟨h3, h4⟩
      · exact (hfilled _).2 (Or.inl hgone)
      · have hplace := hforward (w - s) (by omega)
        rw [show s + (w - s) = w by omega] at hplace
        exact (hfilled _).2 (Or.inr (by omega))
  · have hintact := h.intact w hw
    by_cases hin : d ≤ p.forward w ∧ p.forward w < d + n
    · obtain ⟨heq, hloc⟩ := hsource w hw hin.1 hin.2
      rw [location_of_filled ((hfilled _).2 (Or.inr hin)), hmemory, if_pos hin, ← heq,
        ← hintact, hloc]
    · have hloc : p.location filled' w = p.location filled w := by
        by_cases hfw : filled (p.forward w)
        · rw [location_of_filled hfw, location_of_filled ((hfilled _).2 (Or.inl hfw))]
        · rw [location_of_not_filled hfw,
            location_of_not_filled fun hfw' => ((hfilled _).1 hfw').elim hfw hin]
      rw [hloc, hmemory, if_neg, hintact]
      -- Nothing is overwritten that has not gone.
      by_cases hfw : filled (p.forward w)
      · rw [location_of_filled hfw]
        exact hin
      · rw [location_of_not_filled hfw]
        rintro ⟨h1, h2⟩
        rcases hsafe w hw h1 h2 with hgone | ⟨h3, h4⟩
        · exact hfw hgone
        · have hplace := hforward (w - s) (by omega)
          rw [show s + (w - s) = w by omega] at hplace
          exact hin (by omega)

/-- Rewriting an object that has arrived. -/
theorem update (h : p.Moved content filled memory) (hp : p.Valid) (ho : o ∈ p.objs)
    (harrived : ∀ k, k < o.words → p.location filled (o.start + k) = p.forward o.start + k)
    (hcontent : ∀ k, k < o.words → memory' (p.forward o.start + k) = content' (o.start + k))
    (hother : ∀ w, ¬o.Covers w → content' w = content w)
    (hmemory : ∀ x, ¬(p.forward o.start ≤ x ∧ x < p.forward o.start + o.words) →
      memory' x = memory x) :
    p.Moved content' filled memory' := by
  refine ⟨h.closed, fun w hw => ?_⟩
  by_cases hcov : o.Covers w
  · obtain ⟨h1, h2⟩ := hcov
    have hk : w - o.start < o.words := by
      simp only [Span.past] at h2
      omega
    have heq : o.start + (w - o.start) = w := by omega
    have hloc := harrived _ hk
    have hval := hcontent _ hk
    rw [heq] at hloc hval
    rw [hloc, hval]
  · rw [hother w hcov, hmemory, h.intact w hw]
    rintro ⟨h1, h2⟩
    -- The locations of the object are taken.
    have hk : p.location filled w - p.forward o.start < o.words := by omega
    have hlive : Live p.objs (o.start + (p.location filled w - p.forward o.start)) :=
      live_of_mem ho ⟨Nat.le_add_right .., by simp only [Span.past]; omega⟩
    have heq := location_injective hp h.closed hw hlive (by rw [harrived _ hk]; omega)
    exact hcov ⟨by omega, by simp only [Span.past]; omega⟩

/-- Rewriting words at which no live word is. -/
theorem write (h : p.Moved content filled memory)
    (hmemory : ∀ x, memory' x ≠ memory x → ∀ w, Live p.objs w → p.location filled w ≠ x) :
    p.Moved content filled memory' := by
  refine ⟨h.closed, fun w hw => ?_⟩
  rw [← h.intact w hw]
  by_contra hne
  exact hmemory _ hne w hw rfl

/-- Words to which no live word goes may count as filled too, if what was live there has gone. -/
theorem widen (h : p.Moved content filled memory) (hmore : ∀ x, filled x → filled' x)
    (hplaceless : ∀ x, filled' x → ¬filled x → ∀ w, Live p.objs w → p.forward w ≠ x)
    (hgone : ∀ w, Live p.objs w → filled' w → ¬filled w → filled' (p.forward w)) :
    p.Moved content filled' memory := by
  have hplace : ∀ w, Live p.objs w → (filled' (p.forward w) ↔ filled (p.forward w)) := fun w hw =>
    ⟨fun hx => by
      by_contra hnot
      exact hplaceless _ hx hnot w hw rfl, hmore _⟩
  constructor
  · intro w hw hx
    by_cases hold : filled w
    · exact hmore _ (h.closed w hw hold)
    · exact hgone w hw hx hold
  · intro w hw
    have hsame : p.location filled' w = p.location filled w := by
      by_cases hx : filled (p.forward w)
      · rw [location_of_filled hx, location_of_filled (hmore _ hx)]
      · rw [location_of_not_filled hx, location_of_not_filled (mt (hplace w hw).1 hx)]
    rw [hsame, h.intact w hw]

end Moved

end Plan

end MarkCompact
