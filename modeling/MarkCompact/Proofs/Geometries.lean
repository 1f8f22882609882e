import Mathlib.Tactic.Ring
import MarkCompact.Geometry

/-!
# Dividing a covered range

Settings come from outside, so any numbers may stand in them.  Dividing a covered range looks at
them in a fixed order and refuses those that do not fit, but the region size is formed before it is
known to be small enough: a logarithm that is no shift amount ends in a fault instead of a refusal.

Main statements: `Geometry.ofSettings_decided` (what comes of any settings, and which check was the
first not to pass), `Geometry.exists_ofSettings_iff` (when there is a geometry) and
`Geometry.ofSettings_broken_iff` (when there is a fault).
-/

namespace MarkCompact

variable {settings : Settings} {bytes n : ℕ} {g : Geometry} {fault : Fault}

/-! ## Set-ups that succeed -/

lemma lift_eq_ok_iff {α : Type} {x : Except Fault α} {y : α} :
    (liftM x : Except SetupError α) = .ok y ↔ x = .ok y := by
  cases x <;> simp [liftM, monadLift, MonadLift.monadLift]

lemma refuse_bind {α β : Type} (misfit : Misfit) (f : α → Except SetupError β) :
    (refuse misfit >>= f) = refuse misfit := rfl

lemma lift_ok_bind {α β : Type} (x : α) (f : α → Except SetupError β) :
    ((liftM (Except.ok x : Except Fault α) : Except SetupError α) >>= f) = f x := rfl

lemma lift_error_bind {α β : Type} (fault : Fault) (f : α → Except SetupError β) :
    ((liftM (Except.error fault : Except Fault α) : Except SetupError α) >>= f)
      = .error (.broken fault) := rfl

lemma throw_bind {α β : Type} (cause : SetupError) (f : α → Except SetupError β) :
    (throw cause >>= f) = throw cause := rfl

/-- What does not fail goes on. -/
lemma ite_throw_eq_ok_iff {α : Type} {p : Prop} [Decidable p] {cause : SetupError}
    {f : Except SetupError α} {x : α} :
    (if p then throw cause else f) = .ok x ↔ ¬p ∧ f = .ok x := by
  by_cases h : p <;> simp [h, throw, throwThe, MonadExceptOf.throw]

/-- What is not refused goes on. -/
lemma ite_refuse_eq_ok_iff {α : Type} {p : Prop} [Decidable p] {misfit : Misfit}
    {f : Except SetupError α} {x : α} : (if p then refuse misfit else f) = .ok x ↔ ¬p ∧ f = .ok x :=
  ite_throw_eq_ok_iff

/-! ## Sizes -/

namespace Geometry

lemma regionBytes_eq (g : Geometry) : g.regionBytes = 2 ^ (g.regionLog + 3) := by
  rw [regionBytes, g.regionWords_eq, Nat.pow_eq, Nat.pow_add]
  rfl

/-- The blocks of all regions make up the covered range. -/
lemma blockCount_mul (g : Geometry) : g.blockCount * g.blockBytes = g.coveredBytes := by
  rw [blockCount, blockBytes, coveredBytes, regionBytes, ← g.blocks_mul_blockWords]
  ring

/-- A power of two that is a shift amount is a word. -/
lemma shiftLeft_one_eq (h : n < bitsPerWord) : Word.shiftLeft 1 n = .ok (2 ^ n) := by
  have hword : 2 ^ n < wordValues := Nat.pow_lt_pow_right (n := bitsPerWord) (by decide) h
  rw [Word.shiftLeft, if_pos h, Nat.one_shiftLeft, Nat.mod_eq_of_lt hword]

/-- A region of this many words fits the live size field. -/
lemma two_pow_lt_liveLimit_iff : 2 ^ n < liveLimit ↔ n < liveBits := by
  rw [show liveLimit = 2 ^ liveBits from rfl]
  exact Nat.pow_lt_pow_iff_right (by decide)

end Geometry

/-! ## What comes of settings -/

/-- The settings divide a covered range of this many bytes. -/
structure Settings.Divide (s : Settings) (bytes : ℕ) : Prop where
  workers_pos : 0 < s.workers
  minimum_le : minimumRegionLog ≤ s.regionLog
  regionLog_lt : s.regionLog < liveBits
  blockLog_le : s.blockLog ≤ s.regionLog
  bytes_pos : 0 < bytes
  region_dvd : 2 ^ s.regionLog * bytesPerWord ∣ bytes

/-- The geometry divides a covered range of this many bytes, with the sizes that the settings ask
for. -/
structure Geometry.Realizes (g : Geometry) (s : Settings) (bytes : ℕ) : Prop where
  regionLog_eq : g.regionLog = s.regionLog
  blockLog_eq : g.blockLog = s.blockLog
  regionWords_eq : g.regionWords = 2 ^ s.regionLog
  blockWords_eq : g.blockWords = 2 ^ s.blockLog
  blocksPerRegion_eq : g.blocksPerRegion = 2 ^ (s.regionLog - s.blockLog)
  regions_cover : g.regionCount * g.regionBytes = bytes
  blocks_fill : g.blocksPerRegion * g.blockWords = g.regionWords
  blocks_cover : g.blockCount * g.blockBytes = bytes
  blockCount_eq : g.blockCount = g.regionCount * g.blocksPerRegion
  /-- A completely live region fits the live size field. -/
  regionWords_lt : g.regionWords < liveLimit

/-- What comes of dividing a covered range, by the first check that does not pass. -/
inductive Settings.Decided (s : Settings) (bytes : ℕ) : Except SetupError Geometry → Prop
  | noWorkers (h : s.workers = 0) : Decided s bytes (refuse .noWorkers)
  | regionTooSmall (workers : 0 < s.workers) (h : s.regionLog < minimumRegionLog) :
    Decided s bytes (refuse (.regionTooSmall s.regionLog minimumRegionLog))
  | noShift (workers : 0 < s.workers) (h : bitsPerWord ≤ s.regionLog) :
      Decided s bytes (.error (.broken .shiftLeftOverflow))
  | regionTooLarge (workers : 0 < s.workers) (shift : s.regionLog < bitsPerWord)
      (h : liveBits ≤ s.regionLog) :
    Decided s bytes (refuse (.regionTooLarge s.regionLog))
  | blockTooLarge (workers : 0 < s.workers) (minimum : minimumRegionLog ≤ s.regionLog)
      (limit : s.regionLog < liveBits)
    (h : s.regionLog < s.blockLog) :
    Decided s bytes (refuse (.blockTooLarge s.blockLog s.regionLog))
  | coveredNotMultiple (workers : 0 < s.workers) (minimum : minimumRegionLog ≤ s.regionLog)
      (limit : s.regionLog < liveBits)
    (block : s.blockLog ≤ s.regionLog) (h : bytes = 0 ∨ ¬2 ^ s.regionLog * bytesPerWord ∣ bytes) :
    Decided s bytes (refuse (.coveredNotMultiple bytes (2 ^ s.regionLog * bytesPerWord)))
  | divided {g : Geometry} (h : s.Divide bytes) (realizes : g.Realizes s bytes) :
      Decided s bytes (.ok g)

namespace Geometry

/-- The geometry of a range that the settings divide. -/
lemma ofLogs_realizes (h : settings.Divide bytes) :
    (ofLogs settings.regionLog settings.blockLog
      (bytes / (2 ^ settings.regionLog * bytesPerWord)) h.blockLog_le).Realizes
      settings bytes := by
  have hcover : (ofLogs settings.regionLog settings.blockLog
      (bytes / (2 ^ settings.regionLog * bytesPerWord))
      h.blockLog_le).coveredBytes = bytes := Nat.div_mul_cancel h.region_dvd
  exact ⟨rfl, rfl, rfl, rfl, rfl, hcover, blocks_mul_blockWords _,
    (blockCount_mul _).trans hcover, rfl, two_pow_lt_liveLimit_iff.2 h.regionLog_lt⟩

/-- Every outcome has its reason. -/
theorem ofSettings_decided (settings : Settings) (bytes : ℕ) :
    settings.Decided bytes (ofSettings settings bytes) := by
  simp only [ofSettings, refuse_bind]
  split
  case isTrue hworkers => exact .noWorkers hworkers
  case isFalse hworkers =>
  have hpos : 0 < settings.workers := Nat.pos_of_ne_zero hworkers
  split
  case isTrue hsmall => exact .regionTooSmall hpos hsmall
  case isFalse hsmall =>
  have hminimum : minimumRegionLog ≤ settings.regionLog := not_lt.1 hsmall
  by_cases hshift : settings.regionLog < bitsPerWord
  case neg =>
    rw [Word.shiftLeft, if_neg hshift, lift_error_bind]
    exact .noShift hpos (not_lt.1 hshift)
  case pos =>
  rw [shiftLeft_one_eq hshift, lift_ok_bind]
  split
  case isTrue hlarge =>
    exact .regionTooLarge hpos hshift
      (not_lt.1 fun h => absurd hlarge (not_le.2 (two_pow_lt_liveLimit_iff.2 h)))
  case isFalse hlarge =>
  have hlimit : settings.regionLog < liveBits := two_pow_lt_liveLimit_iff.1 (not_le.1 hlarge)
  split
  case isFalse hblock => exact .blockTooLarge hpos hminimum hlimit (not_le.1 hblock)
  case isTrue hblock =>
  split
  case isTrue hbytes =>
    exact .coveredNotMultiple hpos hminimum hlimit hblock
      (hbytes.imp_right fun h => mt Nat.mod_eq_zero_of_dvd h)
  case isFalse hbytes =>
  obtain ⟨hne, hmod⟩ := not_or.1 hbytes
  have hdivide : settings.Divide bytes :=
    ⟨hpos, hminimum, hlimit, hblock, Nat.pos_of_ne_zero hne,
      Nat.dvd_of_mod_eq_zero (not_not.1 hmod)⟩
  exact .divided hdivide (ofLogs_realizes hdivide)

/-- There is a geometry exactly if the settings divide the range. -/
theorem exists_ofSettings_iff :
    (∃ g, ofSettings settings bytes = .ok g) ↔ settings.Divide bytes := by
  have hdecided := ofSettings_decided settings bytes
  generalize ofSettings settings bytes = out at hdecided
  constructor
  · rintro ⟨g, rfl⟩
    cases hdecided with
    | divided h _ => exact h
  · intro h
    obtain ⟨hworkers, hminimum, hlimit, hblock, hbytes, hdvd⟩ := h
    cases hdecided with
    | divided _ _ => exact ⟨_, rfl⟩
    | noWorkers h => omega
    | regionTooSmall _ h => omega
    | noShift _ h => exact absurd (lt_of_lt_of_le hlimit (by decide)) (not_lt.2 h)
    | regionTooLarge _ _ h => omega
    | blockTooLarge _ _ _ h => omega
    | coveredNotMultiple _ _ _ _ h => exact absurd h (not_or.2 ⟨by omega, not_not.2 hdvd⟩)

/-- A geometry divides the range as the settings ask. -/
theorem realizes_of_ofSettings (h : ofSettings settings bytes = .ok g) :
    g.Realizes settings bytes := by
  have hdecided := ofSettings_decided settings bytes
  rw [h] at hdecided
  cases hdecided with
  | divided _ hrealizes => exact hrealizes

/-- What the set-up of a collector goes on with. -/
theorem ofSettings_eq_ok (h : ofSettings settings bytes = .ok g) :
    0 < settings.workers ∧ g.regionWords < liveLimit ∧ bytes = g.coveredBytes := by
  have hdivide : settings.Divide bytes := exists_ofSettings_iff.1 ⟨g, h⟩
  have hrealizes := realizes_of_ofSettings h
  exact ⟨hdivide.workers_pos, hrealizes.regionWords_lt, hrealizes.regions_cover.symm⟩

/-- The one fault is that of a region size that cannot be formed. -/
theorem ofSettings_broken_iff : ofSettings settings bytes = .error (.broken fault)
    ↔ 0 < settings.workers ∧ bitsPerWord ≤ settings.regionLog ∧ fault = .shiftLeftOverflow := by
  have hdecided := ofSettings_decided settings bytes
  generalize ofSettings settings bytes = out at hdecided
  constructor
  · rintro rfl
    cases hdecided with
    | noShift hworkers h => exact ⟨hworkers, h, rfl⟩
  · rintro ⟨hworkers, hshift, rfl⟩
    have hlimits : minimumRegionLog ≤ bitsPerWord ∧ liveBits ≤ bitsPerWord := by decide
    cases hdecided with
    | noShift _ _ => rfl
    | noWorkers h => omega
    | regionTooSmall _ h => omega
    | regionTooLarge _ h _ => omega
    | blockTooLarge _ _ h _ => omega
    | coveredNotMultiple _ _ h _ _ => omega
    | divided h _ => exact absurd h.regionLog_lt (by omega)

example : ofSettings { workers := 1, regionLog := 64 } 4096
    = .error (.broken .shiftLeftOverflow) := rfl

end Geometry

end MarkCompact
