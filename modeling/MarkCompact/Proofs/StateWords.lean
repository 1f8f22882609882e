import MarkCompact.Proofs.Counts

/-!
# The state word of a region

Workers share the word in which a region packs its count and its live size, and call on it in any
order.  Each call is carried out if the phase of the region permits it, and otherwise it is turned
down and the word stays as it is.  A `Ledger` counts the calls that were carried out; `Accords` says
what the word stands for by the ledger.

Main statements: `Region.serve_eq` (one call), `Accords.serveAll` (calls in any order) and
`Region.planned_calls` (calls on a region that has been planned).
-/

namespace MarkCompact

/-- A call on the state word of a region. -/
inductive RegionCall where
  | decrement
  | claim
  | claimAlone
  | addLive (words : ℕ)
  | complete
  deriving DecidableEq, Repr

/-- How a call ends. -/
inductive CallOutcome where
  | carriedOut
  /-- A claim that did not succeed. -/
  | refused
  /-- A check did not hold. -/
  | faulted (fault : Fault)
  deriving DecidableEq, Repr

/-! ## What a phase permits -/

namespace Phase

/-- A region in that phase, with that many live words, permits the call. -/
def Permits (phase : Phase) (live : ℕ) : RegionCall → Prop
  | .decrement => phase = .waiting
  | .claim => phase = .available
  | .claimAlone => phase = .available
  | .addLive words => live + words < liveLimit
  | .complete => phase = .claimed

instance (phase : Phase) (live : ℕ) : ∀ call, Decidable (phase.Permits live call)
  | .decrement => inferInstanceAs (Decidable (phase = .waiting))
  | .claim => inferInstanceAs (Decidable (phase = .available))
  | .claimAlone => inferInstanceAs (Decidable (phase = .available))
  | .addLive words => inferInstanceAs (Decidable (live + words < liveLimit))
  | .complete => inferInstanceAs (Decidable (phase = .claimed))

/-- How a call ends that is not permitted. -/
def rejection (phase : Phase) (live : ℕ) : RegionCall → CallOutcome
  | .decrement => .faulted (if phase = .available then .countUnderflow else .decrementOfClaimed)
  | .claim => .refused
  | .claimAlone => .refused
  | .addLive words =>
    .faulted (if live + words < wordValues then .liveSumTooLarge live words else .addOverflow)
  | .complete => .faulted (if phase = .completed then .completionTwice else .completionUnclaimed)

/-- The one way on from a phase. -/
inductive Next : Phase → Phase → Prop
  | drained : Next waiting available
  | claimed : Next available claimed
  | completed : Next claimed completed

end Phase

/-! ## One call -/

namespace Region

variable {r : Region} {call : RegionCall}

/-- A check that does not hold ends the call before anything is written. -/
def settle (r : Region) : Except Fault Region → CallOutcome × Region
  | .ok r' => (.carriedOut, r')
  | .error fault => (.faulted fault, r)

/-- A claim tells whether it succeeded. -/
def grant : Bool × Region → CallOutcome × Region
  | (true, r') => (.carriedOut, r')
  | (false, r') => (.refused, r')

/-- How a call ends and what it leaves. -/
def serve (r : Region) : RegionCall → CallOutcome × Region
  | .decrement => r.settle r.decrement
  | .claim => grant r.claim
  | .claimAlone => grant r.claimAlone
  | .addLive words => r.settle (r.addLive words)
  | .complete => r.settle r.complete

/-- What a call that is carried out leaves. -/
def effect (r : Region) : RegionCall → Region
  | .decrement => r.withCount (r.count - 1)
  | .claim => r.withCount claimedCount
  | .claimAlone => r.withCount claimedCount
  | .addLive words => { r with state := r.state + words }
  | .complete => r.withCount completedCount

lemma phase_eq_waiting_iff : r.phase = .waiting ↔ 0 < r.count ∧ r.count < claimedCount := by
  rw [phase, Phase.ofCount, claimedCount, completedCount]
  grind

lemma phase_eq_available_iff : r.phase = .available ↔ r.count = 0 := by
  rw [phase, Phase.ofCount, claimedCount, completedCount]
  grind

lemma phase_eq_claimed_iff :
    r.phase = .claimed ↔ claimedCount ≤ r.count ∧ r.count < completedCount := by
  rw [phase, Phase.ofCount, claimedCount, completedCount]
  grind

lemma phase_eq_completed_iff : r.phase = .completed ↔ completedCount ≤ r.count := by
  rw [phase, Phase.ofCount, claimedCount, completedCount]
  grind

lemma serve_decrement :
    r.serve .decrement = if r.phase = .waiting then (.carriedOut, r.withCount (r.count - 1))
    else (.faulted (if r.phase = .available then .countUnderflow else .decrementOfClaimed), r) := by
  rw [serve]
  by_cases hwaiting : r.phase = .waiting
  · obtain ⟨h1, h2⟩ := phase_eq_waiting_iff.1 hwaiting
    rw [if_pos hwaiting, decrement_eq h1 h2, settle]
  · rw [if_neg hwaiting, decrement]
    by_cases havailable : r.phase = .available
    · have hcount := phase_eq_available_iff.1 havailable
      rw [if_pos havailable, if_neg (by rw [le_state_iff, hcount]; decide),
        if_pos (state_lt_iff.2 hcount)]
      rfl
    · have hcount := mt phase_eq_available_iff.2 havailable
      rw [phase_eq_waiting_iff] at hwaiting
      rw [if_neg havailable, if_pos (le_state_iff.2 (by omega))]
      rfl

lemma serve_claim :
    r.serve .claim = if r.phase = .available then (.carriedOut, r.withCount claimedCount)
      else (.refused, r) := by
  rw [serve]
  by_cases havailable : r.phase = .available
  · rw [if_pos havailable, claim_eq (phase_eq_available_iff.1 havailable), grant]
  · have hcount := mt phase_eq_available_iff.2 havailable
    have hstate := r.state_eq
    have hpos : 0 < r.count * liveLimit := Nat.mul_pos (by omega) (by decide)
    rw [if_neg havailable, claim, if_neg (by omega), grant]

lemma serve_claimAlone :
    r.serve .claimAlone = if r.phase = .available then (.carriedOut, r.withCount claimedCount)
      else (.refused, r) := by
  rw [serve, claimAlone_eq]
  by_cases havailable : r.phase = .available
  · rw [if_pos havailable, if_pos (phase_eq_available_iff.1 havailable), grant]
  · rw [if_neg havailable, if_neg (mt phase_eq_available_iff.2 havailable), grant]

lemma serve_addLive {words : ℕ} : r.serve (.addLive words) = if r.liveWords + words < liveLimit
    then (.carriedOut, { r with state := r.state + words })
    else (.faulted (if r.liveWords + words < wordValues then .liveSumTooLarge r.liveWords words
      else .addOverflow), r) := by
  rw [serve]
  by_cases hroom : r.liveWords + words < liveLimit
  · rw [if_pos hroom, addLive_eq hroom, settle]
  · rw [if_neg hroom, addLive, Word.add]
    split
    · rw [ok_bind, if_neg hroom]
      rfl
    · rfl

lemma serve_complete :
    r.serve .complete = if r.phase = .claimed then (.carriedOut, r.withCount completedCount)
    else (.faulted (if r.phase = .completed then .completionTwice else .completionUnclaimed),
      r) := by
  rw [serve, complete]
  by_cases hclaimed : r.phase = .claimed
  · obtain ⟨h1, h2⟩ := phase_eq_claimed_iff.1 hclaimed
    rw [if_pos hclaimed, if_neg (not_lt.2 (le_state_iff.2 h1)),
      if_neg (mt le_state_iff.1 (not_le.2 h2))]
    rfl
  · rw [if_neg hclaimed]
    by_cases hcompleted : r.phase = .completed
    · have hcount := phase_eq_completed_iff.1 hcompleted
      have hle : claimedCount ≤ completedCount := by decide
      rw [if_pos hcompleted, if_neg (not_lt.2 (le_state_iff.2 (hle.trans hcount))),
        if_pos (le_state_iff.2 hcount)]
      rfl
    · have hcount := mt phase_eq_completed_iff.2 hcompleted
      rw [phase_eq_claimed_iff] at hclaimed
      rw [if_neg hcompleted, if_pos (not_le.1 (mt le_state_iff.1 (by omega)))]
      rfl

/-- A call is carried out if the phase permits it, and is rejected otherwise. -/
theorem serve_eq (r : Region) (call : RegionCall) : r.serve call
    = if r.phase.Permits r.liveWords call then (.carriedOut, r.effect call)
      else (r.phase.rejection r.liveWords call, r) := by
  cases call with
  | decrement => exact serve_decrement
  | claim => exact serve_claim
  | claimAlone => exact serve_claimAlone
  | addLive words => exact serve_addLive
  | complete => exact serve_complete

end Region

/-! ## Calls in any order -/

/-- How often each kind of call was carried out, and the words that were added. -/
structure Ledger where
  decrements : ℕ := 0
  claims : ℕ := 0
  completions : ℕ := 0
  added : ℕ := 0
  deriving DecidableEq, Repr

namespace Ledger

/-- Enters a call that was carried out. -/
def enter (l : Ledger) : RegionCall → Ledger
  | .decrement => { l with decrements := l.decrements + 1 }
  | .claim => { l with claims := l.claims + 1 }
  | .claimAlone => { l with claims := l.claims + 1 }
  | .addLive words => { l with added := l.added + words }
  | .complete => { l with completions := l.completions + 1 }

/-- The count, by the ledger, of a region that was planned with so many destinations. -/
def count (planned : ℕ) (l : Ledger) : ℕ :=
  if 0 < l.completions then completedCount
  else if 0 < l.claims then claimedCount
  else planned - l.decrements

lemma count_of_unclaimed {l : Ledger} (hclaims : l.claims = 0)
    (hcompletions : l.completions ≤ l.claims) (planned : ℕ) :
    l.count planned = planned - l.decrements := by
  rw [count, if_neg (by omega), if_neg (by omega)]

end Ledger

namespace Region

variable {r r' : Region} {call : RegionCall} {calls : List RegionCall} {l l' : Ledger}
  {live count : ℕ}

/-- What a sequence of calls comes to: the region, and the ledger with the calls entered that were
carried out. -/
def serveAll : List RegionCall → Region → Ledger → Region × Ledger
  | [], r, l => (r, l)
  | call :: rest, r, l =>
    match r.serve call with
    | (.carriedOut, r') => serveAll rest r' (l.enter call)
    | (_, r') => serveAll rest r' l

/-- What the word of a region, planned with `live` words and `count` destinations, stands for when
the calls in the ledger have been carried out. -/
structure Accords (live count : ℕ) (l : Ledger) (r : Region) : Prop where
  liveWords_eq : r.liveWords = live + l.added
  count_eq : r.count = l.count count
  decrements_le : l.decrements ≤ count
  /-- Nobody else claims the region, and not before every destination has been served. -/
  claims_le : l.claims ≤ 1
  drained : 0 < l.claims → l.decrements = count
  completions_le : l.completions ≤ l.claims

lemma accords_planned (hlive : r.liveWords = live) (hcount : r.count = count) :
    r.Accords live count {} where
  liveWords_eq := hlive
  count_eq := hcount
  decrements_le := Nat.zero_le count
  claims_le := Nat.zero_le 1
  drained h := absurd h (lt_irrefl 0)
  completions_le := le_rfl

namespace Accords

variable (h : r.Accords live count l)
include h

lemma count_of_unclaimed (hnone : l.claims = 0) : r.count = count - l.decrements :=
  h.count_eq.trans (Ledger.count_of_unclaimed hnone h.completions_le count)

lemma count_of_claimed (hone : 0 < l.claims) : claimedCount ≤ r.count := by
  rw [h.count_eq, Ledger.count]
  rw [if_pos hone]
  split <;> decide

/-- The phase tells whether the region has been claimed. -/
lemma claims_eq_zero_iff (hlt : count < claimedCount) : l.claims = 0 ↔ r.count < claimedCount := by
  constructor
  · intro hnone
    rw [h.count_of_unclaimed hnone]
    omega
  · intro hcount
    by_contra hsome
    exact absurd hcount (not_lt.2 (h.count_of_claimed (Nat.pos_of_ne_zero hsome)))

lemma completions_eq_zero (hcount : r.count < completedCount) : l.completions = 0 := by
  by_contra hsome
  rw [h.count_eq, Ledger.count, if_pos (Nat.pos_of_ne_zero hsome)] at hcount
  exact lt_irrefl _ hcount

/-- The word has room for both of its numbers. -/
lemma state_lt (hlt : count < claimedCount) : r.state < 2 ^ 32 := by
  have hcount : r.count ≤ completedCount := by
    rw [h.count_eq, Ledger.count]
    split
    · exact le_rfl
    · split
      · decide
      · exact (Nat.sub_le ..).trans (hlt.le.trans (by decide))
  have hmul := Nat.mul_le_mul_right liveLimit hcount
  have hfits : completedCount * liveLimit + liveLimit ≤ 2 ^ 32 := by decide
  have hwords := r.liveWords_lt
  rw [r.state_eq]
  omega

/-- A claim finds that every destination has been served. -/
lemma claim (hlt : count < claimedCount) (havailable : r.phase = .available) :
    (r.withCount claimedCount).Accords live count { l with claims := l.claims + 1 } := by
  have hcount := phase_eq_available_iff.1 havailable
  have hnone := (h.claims_eq_zero_iff hlt).2 (by rw [hcount]; decide)
  have hleft := h.count_of_unclaimed hnone
  have hserved := h.decrements_le
  have hcompletions := h.completions_le
  exact {
    liveWords_eq := (liveWords_withCount ..).trans h.liveWords_eq
    count_eq := by
      rw [count_withCount, Ledger.count, if_neg (show ¬0 < l.completions by omega),
        if_pos (Nat.succ_pos _)]
    decrements_le := hserved
    claims_le := show l.claims + 1 ≤ 1 by omega
    drained _ := show l.decrements = count by omega
    completions_le := show l.completions ≤ l.claims + 1 by omega }

/-- A call that the phase permits leaves what the ledger says when the call is entered. -/
lemma effect (hlt : count < claimedCount) (hpermits : r.phase.Permits r.liveWords call) :
    (r.effect call).Accords live count (l.enter call) := by
  have hserved := h.decrements_le
  have hcompletions := h.completions_le
  cases call with
  | decrement =>
    obtain ⟨hpos, hunclaimed⟩ := phase_eq_waiting_iff.1 hpermits
    have hnone := (h.claims_eq_zero_iff hlt).2 hunclaimed
    have hleft := h.count_of_unclaimed hnone
    exact {
      liveWords_eq := (liveWords_withCount ..).trans h.liveWords_eq
      count_eq := by
        rw [Region.effect, count_withCount,
          Ledger.count_of_unclaimed (l := l.enter .decrement) hnone hcompletions, hleft]
        exact Nat.sub_sub ..
      decrements_le := show l.decrements + 1 ≤ count by omega
      claims_le := h.claims_le
      drained hone := absurd hone (show ¬0 < l.claims by omega)
      completions_le := hcompletions }
  | claim => exact h.claim hlt hpermits
  | claimAlone => exact h.claim hlt hpermits
  | addLive words =>
    exact {
      liveWords_eq := by
        rw [Region.effect, liveWords_add hpermits, h.liveWords_eq, Ledger.enter, Nat.add_assoc]
      count_eq := (count_add hpermits).trans h.count_eq
      decrements_le := hserved
      claims_le := h.claims_le
      drained := h.drained
      completions_le := hcompletions }
  | complete =>
    obtain ⟨hclaimed, huncompleted⟩ := phase_eq_claimed_iff.1 hpermits
    have hsome := mt (h.claims_eq_zero_iff hlt).1 (not_lt.2 hclaimed)
    have hnone := h.completions_eq_zero huncompleted
    exact {
      liveWords_eq := (liveWords_withCount ..).trans h.liveWords_eq
      count_eq := by
        rw [Region.effect, count_withCount, Ledger.enter, Ledger.count, if_pos (Nat.succ_pos _)]
      decrements_le := hserved
      claims_le := h.claims_le
      drained := h.drained
      completions_le := show l.completions + 1 ≤ l.claims by omega }

/-- Calls in any order keep the word and the ledger together. -/
lemma serveAll (hlt : count < claimedCount) (hrun : Region.serveAll calls r l = (r', l')) :
    r'.Accords live count l' := by
  induction calls generalizing r l with
  | nil =>
    obtain ⟨rfl, rfl⟩ := Prod.mk.inj hrun
    exact h
  | cons call rest ih =>
    rw [Region.serveAll, serve_eq] at hrun
    by_cases hpermits : r.phase.Permits r.liveWords call
    · rw [if_pos hpermits] at hrun
      exact ih (h.effect hlt hpermits) hrun
    · rw [if_neg hpermits] at hrun
      -- No rejection reads as a call that was carried out, so the ledger stays.
      cases call <;> exact ih h hrun

end Accords

/-! ## The answer to a call -/

/-- How the region answers a call. -/
structure Answers (r : Region) (call : RegionCall) : Prop where
  permitted : r.phase.Permits r.liveWords call → r.serve call = (.carriedOut, r.effect call)
  /-- A call that the phase does not permit changes nothing. -/
  rejected : ¬r.phase.Permits r.liveWords call →
    r.serve call = (r.phase.rejection r.liveWords call, r)
  /-- No call takes the region back, or over a phase. -/
  forward : (r.serve call).2.phase = r.phase ∨ r.phase.Next (r.serve call).2.phase
  /-- Nothing but the word changes. -/
  frame : { (r.serve call).2 with state := r.state } = r

lemma phase_effect (hpermits : r.phase.Permits r.liveWords call) :
    (r.effect call).phase = r.phase ∨ r.phase.Next (r.effect call).phase := by
  cases call with
  | decrement =>
    obtain ⟨hpos, hunclaimed⟩ := phase_eq_waiting_iff.1 hpermits
    by_cases hlast : r.count = 1
    · have hafter : (r.effect .decrement).phase = .available :=
        phase_eq_available_iff.2 (by rw [effect, count_withCount, hlast])
      rw [hpermits, hafter]
      exact .inr .drained
    · have hafter : (r.effect .decrement).phase = .waiting :=
        phase_eq_waiting_iff.2 (by rw [effect, count_withCount]; omega)
      exact .inl (hafter.trans hpermits.symm)
  | claim | claimAlone =>
    have hafter : (r.withCount claimedCount).phase = .claimed :=
      phase_eq_claimed_iff.2 (by rw [count_withCount]; decide)
    right
    rw [hpermits, effect, hafter]
    exact .claimed
  | addLive words =>
    left
    rw [phase, phase, effect, count_add hpermits]
  | complete =>
    have hafter : (r.withCount completedCount).phase = .completed :=
      phase_eq_completed_iff.2 (count_withCount ..).ge
    right
    rw [hpermits, effect, hafter]
    exact .completed

lemma effect_state (r : Region) (call : RegionCall) :
    { r.effect call with state := r.state } = r := by
  cases call <;> rfl

/-- Every region answers every call. -/
theorem answers (r : Region) (call : RegionCall) : r.Answers call := by
  have heq := r.serve_eq call
  by_cases hpermits : r.phase.Permits r.liveWords call
  · rw [if_pos hpermits] at heq
    exact {
      permitted _ := heq
      rejected hnot := absurd hpermits hnot
      forward := by
        rw [heq]
        exact phase_effect hpermits
      frame := by
        rw [heq]
        exact r.effect_state call }
  · rw [if_neg hpermits] at heq
    exact {
      permitted h := absurd h hpermits
      rejected _ := heq
      forward := by
        rw [heq]
        exact .inl rfl
      frame := by rw [heq] }

/-- A region is planned with any number of live words and of destinations for which the word has
room. -/
lemma plan_eq (hlive : live < liveLimit) (hcount : count < claimedCount) (r : Region) :
    (do let r ← r.setLiveWords live; r.setCount count)
      = .ok { r with state := packState count live } := by
  have hwords : ({ r with state := packState r.count live } : Region).liveWords = live :=
    (r.unpack_pack hlive).2
  rw [setLiveWords, if_pos hlive]
  show Region.setCount { r with state := packState r.count live } count = _
  rw [setCount, if_pos hcount, hwords]
  rfl

/-- The workers' calls on a planned region, in any order: the word always stands for the plan and
the calls that were carried out, and every further call is answered by the phase. -/
theorem planned_calls (hlive : live < liveLimit) (hcount : count < claimedCount) (r₀ : Region) :
    ∃ r, (do let r ← r₀.setLiveWords live; r.setCount count) = .ok r ∧ ∀ calls r' l,
      serveAll calls r {} = (r', l) →
      r'.Accords live count l ∧ r'.state < 2 ^ 32 ∧ ∀ call, r'.Answers call := by
  refine ⟨_, plan_eq hlive hcount r₀, fun calls r' l hrun => ?_⟩
  obtain ⟨h1, h2⟩ : ({ r₀ with state := packState count live } : Region).count = count ∧ _ :=
    r₀.unpack_pack hlive
  have haccords := (accords_planned h2 h1).serveAll hcount hrun
  exact ⟨haccords, haccords.state_lt hcount, answers r'⟩

/-- The largest region of all, with as many destinations as the word has room for. -/
theorem planned_calls_full : 134217727 < liveLimit ∧ 7 < claimedCount ∧
    ∃ r, (do let r ← ({} : Region).setLiveWords 134217727; r.setCount 7) = .ok r ∧ ∀ calls r' l,
      serveAll calls r {} = (r', l) →
      r'.Accords 134217727 7 l ∧ r'.state < 2 ^ 32 ∧ ∀ call, r'.Answers call :=
  ⟨by decide, by decide, planned_calls (by decide) (by decide) {}⟩

-- Two workers serve the region, one of them asks too early and one asks twice.
example : (serveAll [.claim, .decrement, .addLive 27, .decrement, .decrement, .claim, .claimAlone,
    .complete, .addLive 134217601]
    { state := packState 2 100 } {}) = ({ state := packState 12 127 }, ⟨2, 1, 1, 27⟩) := by decide

end Region

end MarkCompact
