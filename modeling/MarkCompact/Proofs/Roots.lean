import MarkCompact.Proofs.LiveWords

/-!
# Adjusting roots

Strong roots refer to live objects and are redirected like references of objects.  A weak root may
refer to anything: it is cleared if its word is not live, and otherwise goes where its word goes.

Main statements: `adjustStrongRoots_runs` and `adjustWeakRoots_runs`.
-/

namespace MarkCompact

variable {p : Plan} {z : Zone} {a b w : ℕ}

/-! ## Where a weak root is redirected to -/

instance (objs : List Span) (i : ℕ) : Decidable (Starts objs i) :=
  inferInstanceAs (Decidable (∃ o ∈ objs, o.start = i))

namespace Plan

/-- The word is forwarded with its region, or with the object that reaches into the region. -/
def MovesWhole (p : Plan) (w : ℕ) : Prop :=
  ∃ z ∈ p.zones, z.Has p.regionWords w ∧ (w / p.regionWords < z.keep
    ∨ dataOf p.objs p.regionWords (w / p.regionWords) = p.regionWords
    ∨ w % p.regionWords < partialOf p.objs p.regionWords (w / p.regionWords))

instance (p : Plan) (w : ℕ) : Decidable (p.MovesWhole w) :=
  inferInstanceAs (Decidable (∃ z ∈ p.zones, _ ∧ _))

/-- Which byte of its new word a reference to byte `b` of a live word is redirected to. -/
def byteOf (p : Plan) (w b : ℕ) : ℕ :=
  if p.MovesWhole w ∨ Starts p.objs w then 0 else b

/-- Where a weak root that holds `a` is redirected to. -/
def redirectWeak (p : Plan) (a : ℕ) : ℕ :=
  if p.InSpace a then
    if Live p.objs (p.wordOf a) then
      p.covered.addr (p.forward (p.wordOf a)) + p.byteOf (p.wordOf a)
        ((a - p.covered.start) % bytesPerWord)
    else 0
  else a

/-- A weak root that holds `a` is cleared. -/
def Clears (p : Plan) (a : ℕ) : Prop :=
  p.InSpace a ∧ ¬Live p.objs (p.wordOf a)

instance (p : Plan) : DecidablePred p.Clears := fun _ =>
  inferInstanceAs (Decidable (_ ∧ _))

lemma byteOf_zero (p : Plan) (w : ℕ) : p.byteOf w 0 = 0 :=
  ite_self 0

/-- A weak root to a live word that is not inside of one is redirected as other references are. -/
lemma redirectWeak_addr (hin : p.InSpace (p.covered.addr w)) (hw : Live p.objs w) :
    p.redirectWeak (p.covered.addr w) = p.redirect (p.covered.addr w) := by
  have hbyte : (p.covered.addr w - p.covered.start) % bytesPerWord = 0 := by
    rw [Extent.addr_eq, bytesPerWord]
    omega
  rw [redirectWeak, if_pos hin, wordOf_addr, if_pos hw, redirect_addr hin, hbyte, byteOf_zero,
    Nat.add_zero]

/-- An address of a space is that of a byte of a word. -/
lemma InSpace.eq_byte (h : p.InSpace a) (hp : p.Valid) :
    a = p.covered.addr (p.wordOf a) + (a - p.covered.start) % bytesPerWord
      ∧ p.wordOf a < p.covered.words := by
  obtain ⟨z, hz, h1, h2⟩ := h
  have hlast := (hp.ordered z hz).last_le
  rw [Extent.addr_eq] at h1 h2
  have heq : a = p.covered.addr (p.wordOf a) + (a - p.covered.start) % bytesPerWord := by
    rw [wordOf, Extent.addr_eq, bytesPerWord]
    omega
  rw [wordOf, bytesPerWord]
  exact ⟨heq, by omega⟩

/-- An aligned address in a space is that of a word. -/
lemma InSpace.eq_addr (h : p.InSpace a) (hp : p.Valid) (hstart : bytesPerWord ∣ p.covered.start)
    (haligned : bytesPerWord ∣ a) :
    a = p.covered.addr (p.wordOf a) := by
  have hbyte := (h.eq_byte hp).1
  rwa [Nat.mod_eq_zero_of_dvd (Nat.dvd_sub haligned hstart), Nat.add_zero] at hbyte

/-- What a table that holds the plan says of a word that moves whole. -/
lemma Loaded.movesWhole_iff {t : RegionTable} (ht : p.Loaded t) (hp : p.Valid) (hz : z ∈ p.zones)
    (hw : z.Has p.regionWords w) :
    (t.regions.get (w / p.regionWords)).dataWords = p.regionWords
        ∨ w % p.regionWords < (t.regions.get (w / p.regionWords)).partialWords
      ↔ p.MovesWhole w := by
  have hfirst : z.first ≤ w / p.regionWords := (Nat.le_div_iff_mul_le p.regionWords_pos).2 hw.1
  have hlast : w / p.regionWords < z.last := div_lt_of_lt_mul hw.2
  have hready := ht.ready z hz
  have hwords := ht.regionWords_eq
  have hpartial := hready.partial_eq _ hfirst hlast
  have hunfold : p.MovesWhole w ↔ w / p.regionWords < z.keep
      ∨ dataOf p.objs p.regionWords (w / p.regionWords) = p.regionWords
      ∨ w % p.regionWords < partialOf p.objs p.regionWords (w / p.regionWords) := by
    constructor
    · rintro ⟨z', hz', hw', hcases⟩
      obtain rfl := hp.eq_of_has hz hz' hw hw'
      exact hcases
    · exact fun hcases => ⟨z, hz, hw, hcases⟩
  rw [hwords] at hpartial
  rw [hunfold, hpartial]
  by_cases hkeep : w / p.regionWords < z.keep
  · have hfull := hready.full _ hfirst hkeep
    rw [hwords] at hfull
    exact iff_of_true (Or.inl hfull) (Or.inl hkeep)
  · have hdata := hready.data_eq _ (not_lt.1 hkeep) hlast
    rw [hwords] at hdata
    rw [hdata, or_iff_right hkeep]

end Plan

/-! ## One root -/

namespace Heap

variable {μ : Type} {h : Heap μ}

/-- A wide reference into a space that does not have to be cleared goes where its address is
forwarded to. -/
lemma adjustWide_runs {traversal : Traversal} {target : ℕ} (hp : p.FitsMemory) (hs : p.Serves h)
    (hin : p.InSpace a) (hsurvives : traversal = .weak → h.isLiveWord a = .ok true)
    (hforward : Runs (forward a) h fun x h' => x = target ∧ ∃ t, h' = { h with table := t }
      ∧ RegionTable.Refilled p.objs h.table t) :
    Runs (adjustCell traversal (.wide a)) h fun out h' => out = (.forwarded, .wide target)
      ∧ ∃ t, h' = { h with table := t } ∧ RegionTable.Refilled p.objs h.table t := by
  have hne := InZones.ne_zero hin (lt_of_lt_of_le (by decide) hp.base_le)
  exact adjustCell_survives rfl hne ((hs.isInSpace_iff hp.toValid).2 hin) hsurvives hforward
    (congrArg Cell.wide) rfl

/-- A root that points out of the spaces stays. -/
lemma adjustWide_outside {traversal : Traversal} (hp : p.Valid) (hs : p.Serves h)
    (hin : ¬p.InSpace a) :
    Runs (adjustCell traversal (.wide a)) h fun out h' => out = (.untouched, .wide a) ∧ h' = h :=
  adjustCell_outside rfl (.inr
    (Bool.eq_false_iff.2 fun hspace => hin ((hs.isInSpace_iff hp).1 hspace)))

/-- A strong root is redirected. -/
lemma adjustStrong_runs (hp : p.FitsMemory) (hs : p.Serves h) (hknown : p.Known a) :
    Runs (adjustCell .root (.wide a)) h fun out h' =>
      (out.2 = .wide (p.redirect a) ∧ (out.1 = .cleared ↔ False))
      ∧ ∃ t, h' = { h with table := t } ∧ RegionTable.Refilled p.objs h.table t := by
  by_cases hin : p.InSpace a
  · obtain ⟨w, rfl, hw⟩ := hknown hin
    refine (adjustWide_runs hp hs hin
      (fun heq => absurd heq (by decide)) (forward_runs hp.toValid hs hw)).mono fun out h' => ?_
    rintro ⟨rfl, hrest⟩
    rw [Plan.redirect_addr hin]
    exact ⟨⟨rfl, by simp⟩, hrest⟩
  · refine (adjustWide_outside hp.toValid hs hin).mono fun out h' => ?_
    rintro ⟨rfl, rfl⟩
    rw [Plan.redirect_of_not_inSpace hin]
    exact ⟨⟨rfl, by simp⟩, h'.table, rfl, .refl _ _⟩

/-- An address inside of a live word is forwarded with the word. -/
lemma forward_byte_runs (hp : p.Valid) (hs : p.Serves h) (hw : Live p.objs w) (hb : b < 8) :
    Runs (forward (p.covered.addr w + b)) h fun target h' => target
      = p.covered.addr (p.forward w) + p.byteOf w b
      ∧ ∃ t, h' = { h with table := t } ∧ RegionTable.Refilled p.objs h.table t := by
  have hm := hs.consistent.marks
  have ht := hs.loaded
  have hW := p.regionWords_pos
  obtain ⟨z, hz, hhas, htop⟩ := hp.exists_zone hw
  have hdiv := Nat.div_mul_le_self w p.regionWords
  have hfirst : z.first ≤ w / p.regionWords := (Nat.le_div_iff_mul_le hW).2 hhas.1
  have hlast : w / p.regionWords < z.last := div_lt_of_lt_mul hhas.2
  have hwords : w < p.covered.words := lt_of_lt_of_le hhas.2 (hp.ordered z hz).last_le
  obtain ⟨t, heq, hrefilled⟩ := RegionTable.forward_byte (t := h.table) ht.laid hm
    (hs.bitmap_covered.trans ht.covered.symm) hb hw
    (by
      rw [ht.regionWords_eq];
        exact (ht.ready z hz).sends _ hfirst (by rw [ht.regionWords_eq]; omega))
    (by rw [ht.regionWords_eq]; exact (ht.ready z hz).valid _ hfirst hlast)
  rw [ht.covered, ht.regionWords_eq] at heq
  have hbyte : (if (h.table.regions.get (w / p.regionWords)).dataWords = p.regionWords
      ∨ w % p.regionWords < (h.table.regions.get (w / p.regionWords)).partialWords
      ∨ h.bitmap.begins.mem w then 0 else b)
        = p.byteOf w b := by
    rw [Plan.byteOf]
    refine if_congr ?_ rfl rfl
    rw [← or_assoc, ht.movesWhole_iff hp hz hhas, hm.mem_begins]
  rw [hbyte] at heq
  rw [forward]
  simp only [runs_bind, runs_get, heq, runs_check_ok, runs_set, runs_pure]
  exact ⟨by rw [hp.forward_eq hz hhas], t, rfl, hrefilled⟩

/-- A weak root is cleared or redirected. -/
lemma adjustWeak_runs (hp : p.FitsMemory) (hs : p.Serves h) (a : ℕ) :
    Runs (adjustCell .weak (.wide a)) h fun out h' =>
      (out.2 = .wide (p.redirectWeak a) ∧ (out.1 = .cleared ↔ p.Clears a))
      ∧ ∃ t, h' = { h with table := t } ∧ RegionTable.Refilled p.objs h.table t := by
  by_cases hin : p.InSpace a
  · obtain ⟨heq, hwords⟩ := hin.eq_byte hp.toValid
    have hb : (a - p.covered.start) % bytesPerWord < 8 := Nat.mod_lt _ (by decide)
    have hlive := isLiveWord_byte hs hp.toValid hwords hb
    rw [← heq] at hlive
    by_cases hw : Live p.objs (p.wordOf a)
    · have hforward := forward_byte_runs hp.toValid hs hw hb
      rw [← heq] at hforward
      refine (adjustWide_runs hp hs hin
        (fun _ => hlive.trans (congrArg _ (decide_eq_true hw))) hforward).mono fun out h' => ?_
      rintro ⟨rfl, hrest⟩
      rw [Plan.redirectWeak, if_pos hin, if_pos hw]
      exact ⟨⟨rfl, by simp [Plan.Clears, hw]⟩, hrest⟩
    · have hne := InZones.ne_zero hin (lt_of_lt_of_le (by decide) hp.base_le)
      rw [adjustCell, runs_bind, runs_check]
      refine ⟨a, rfl, ?_⟩
      rw [runs_bind, runs_get,
        if_neg (by rw [hs.isInSpace_iff hp.toValid]; exact not_or.2 ⟨hne, not_not.2 hin⟩),
        if_pos rfl, hlive, decide_eq_false hw, runs_bind, runs_check_ok]
      dsimp only
      rw [if_neg Bool.false_ne_true, runs_bind, runs_check]
      refine ⟨_, rfl, runs_pure.2 ?_⟩
      rw [Plan.redirectWeak, if_pos hin, if_neg hw]
      exact ⟨⟨rfl, by simp [Plan.Clears, hin, hw]⟩, h.table, rfl, .refl _ _⟩
  · refine (adjustWide_outside hp.toValid hs hin).mono fun out h' => ?_
    rintro ⟨rfl, rfl⟩
    rw [Plan.redirectWeak, if_neg hin]
    exact ⟨⟨rfl, by simp [Plan.Clears, hin]⟩, h'.table, rfl, .refl _ _⟩

/-! ## All roots -/

/-- Roots are adjusted one by one, and those that are cleared are counted. -/
lemma adjustRoots_runs {traversal : Traversal} {f : ℕ → ℕ} {C : ℕ → Prop} [DecidablePred C]
    {roots : List ℕ} (hs : p.Serves h)
    (hroot : ∀ a ∈ roots, ∀ h : Heap μ, p.Serves h →
      Runs (adjustCell traversal (.wide a)) h fun out h' =>
      (out.2 = .wide (f a) ∧ (out.1 = .cleared ↔ C a))
        ∧ ∃ t, h' = { h with table := t } ∧ RegionTable.Refilled p.objs h.table t)
    (adjusted : List ℕ) (cleared : ℕ) :
    Runs (adjustRoots traversal roots adjusted cleared) h fun out h' =>
      out = (adjusted.reverse ++ roots.map f, cleared + roots.countP C)
        ∧ ∃ t, h' = { h with table := t } ∧ RegionTable.Refilled p.objs h.table t := by
  induction roots generalizing h adjusted cleared with
  | nil =>
    rw [adjustRoots, runs_pure]
    exact ⟨by simp, h.table, rfl, .refl _ _⟩
  | cons a rest ih =>
    rw [adjustRoots]
    refine Runs.bind (hroot a List.mem_cons_self h hs) fun out h₁ => ?_
    obtain ⟨verdict, cell⟩ := out
    rintro ⟨⟨rfl, hclears⟩, t, rfl, hrefilled⟩
    dsimp only at hclears ⊢
    rw [runs_bind, runs_check]
    refine ⟨_, rfl, (ih (h := { h with
      table := t }) (hs.advance hrefilled.advances rfl rfl rfl hs.spaces)
      (fun a' ha' => hroot a' (List.mem_cons_of_mem _ ha')) _ _).mono fun out h₂ => ?_⟩
    rintro ⟨rfl, t', rfl, hrefilled'⟩
    refine ⟨?_, t', rfl, hrefilled.trans hrefilled'⟩
    rw [List.reverse_cons, List.append_assoc, List.singleton_append, List.map_cons,
      List.countP_cons]
    by_cases hcleared : C a
    · rw [if_pos (hclears.2 hcleared), if_pos (decide_eq_true hcleared), Nat.add_assoc,
        Nat.add_comm 1]
    · rw [if_neg fun h => hcleared (hclears.1 h), if_neg (by simp [hcleared]), Nat.add_zero]

/-- The strong roots are redirected. -/
theorem adjustStrongRoots_runs {roots : List ℕ} (hp : p.FitsMemory) (hs : p.Serves h)
    (hknown : ∀ a ∈ roots, p.Known a) :
    Runs (adjustRoots .root roots [] 0) h fun out h' => out.1 = roots.map p.redirect
        ∧ ∃ t, h' = { h with table := t } ∧ RegionTable.Refilled p.objs h.table t :=
  (adjustRoots_runs (C := fun _ => False) hs
    (fun a ha _ hs => adjustStrong_runs hp hs (hknown a ha)) [] 0).mono
    fun out _ hpost => ⟨by rw [hpost.1]; rfl, hpost.2⟩

/-- The weak roots are cleared or redirected. -/
theorem adjustWeakRoots_runs (hp : p.FitsMemory) (hs : p.Serves h) (roots : List ℕ) :
    Runs (adjustRoots .weak roots [] 0) h fun out h' =>
      out = (roots.map p.redirectWeak, roots.countP p.Clears)
        ∧ ∃ t, h' = { h with table := t } ∧ RegionTable.Refilled p.objs h.table t :=
  (adjustRoots_runs hs (fun a _ _ hs => adjustWeak_runs hp hs a) [] 0).mono
    fun out _ hpost => ⟨by rw [hpost.1, Nat.zero_add]; rfl, hpost.2⟩

end Heap

end MarkCompact
