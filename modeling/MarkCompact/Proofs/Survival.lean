import MarkCompact.Proofs.Results

/-!
# Objects survive a cycle

An object that can be reached keeps its header and its payload at its new place, and its references
refer to the new places of what they referred to.  So what could be reached can still be reached.

Main statements: `Plan.Compacted.word_place` (the words of an object at its place),
`Plan.Compacted.load_place` (its references) and `Plan.Compacted.wellFormed` (a cycle leaves a
well-formed heap).
-/

namespace MarkCompact

variable {p : Plan} {zones : List Zone} {objects : List (List Span)} {strong : List ℕ} {o o' : Span}
  {z : Zone} {b : Place} {a i k x : ℕ} {limiter : Limiter} {maximum : Bool}

/-! ## References of a redirected object -/

namespace Plan

variable {s : Shape} {v : ℕ}

lemma redirectWord_wide (h1 : 0 < k) (h2 : k < s.narrowStart) :
    p.redirectWord s k v = p.redirect v := by
  have hfixed := s.fixedWords_eq
  rw [redirectWord, if_neg (by omega), if_pos h2]

lemma redirectWord_narrow (h1 : s.narrowStart ≤ k) (h2 : k < s.fixedWords) : p.redirectWord s k v
    = (if 2 * (k - s.narrowStart) + 1 < s.narrow then p.redirectAt (.half 1)
      (v / narrowValues) else v / narrowValues)
        * narrowValues + p.redirectAt (.half 0) (v % narrowValues) := by
  have hpos := s.wideStart_pos
  rw [redirectWord, if_neg (by rw [Shape.narrowStart] at h1; omega), if_neg (not_lt.2 h1)]

end Plan

namespace Shape

variable {s : Shape} {f g : ℕ → ℕ}

/-- A word that is all of a reference is in front of the narrow ones. -/
lemma lt_narrowStart (h : .word k ∈ s.allPlaces 0) : 0 < k ∧ k < s.narrowStart := by
  refine ⟨(index_of_mem_allPlaces h).1, ?_⟩
  rw [narrowStart]
  rcases List.mem_append.1 h with hin | hin
  · rcases mem_places.1 hin with ⟨j, hj, heq⟩ | ⟨j, hj, heq⟩
    · rw [Place.word.injEq] at heq
      omega
    · cases heq
  · rw [metadataPlace?] at hin
    split at hin
    case isTrue hmetadata =>
      obtain rfl : k = 0 + 1 := by simpa using hin
      rw [wideStart, hmetadata, Bool.toNat_true]
      omega
    case isFalse => simp at hin

/-- Where the half that is a reference is. -/
lemma half_mem (h : .half k ∈ s.allPlaces 0) :
    2 * s.narrowStart ≤ k ∧ k < 2 * s.narrowStart + s.narrow := by
  rcases List.mem_append.1 h with hin | hin
  · rcases mem_places.1 hin with ⟨j, hj, heq⟩ | ⟨j, hj, heq⟩
    · cases heq
    · rw [Place.half.injEq] at heq
      omega
  · rw [metadataPlace?] at hin
    split at hin
    case isTrue => simp at hin
    case isFalse => simp at hin

/-- The places of an object hold what they held, redirected, if its words are redirected. -/
lemma get_redirected (hp : p.FitsMemory)
    (hrefers : ∀ b ∈ s.allPlaces 0, p.Refers b (b.get (f b.index)))
    (hlt : ∀ b ∈ s.allPlaces 0, f b.index < wordValues)
    (hafter : ∀ b ∈ s.allPlaces 0, g b.index = p.redirectWord s b.index (f b.index))
    (hb : b ∈ s.allPlaces 0) :
    b.get (g b.index) = p.redirectAt b (b.get (f b.index)) := by
  rw [hafter b hb]
  cases b with
  | word k =>
    obtain ⟨h1, h2⟩ := lt_narrowStart hb
    show p.redirectWord s k (f k) = _
    rw [Plan.redirectWord_wide h1 h2]
    rfl
  | half k =>
    obtain ⟨h1, h2⟩ := half_mem hb
    have hfixed := s.fixedWords_eq
    -- The lower half of the word is a reference too, and stays within its half.
    have hlower : Place.half (2 * (0 + s.narrowStart) + (k / 2 * 2 - 2 * s.narrowStart))
        ∈ s.allPlaces 0 :=
      List.mem_append_left _ (mem_places.2 (Or.inr ⟨_, by omega, rfl⟩))
    rw [show 2 * (0 + s.narrowStart) + (k / 2 * 2 - 2 * s.narrowStart)
      = k / 2 * 2 by omega] at hlower
    have hbound :=
      (hrefers _ hlower).redirectAt_lt hp.toValid hp.base_le (Place.get_lt (hlt _ hlower))
    have hbound' : p.redirectAt (.half 0) (f (k / 2) % narrowValues) < narrowValues := by
      rw [Place.index, Nat.mul_div_cancel _ (by decide), Place.get, if_neg (by omega)] at hbound
      exact hbound
    show (if k % 2 = 1 then p.redirectWord s (k / 2) (f (k / 2)) / narrowValues
        else p.redirectWord s (k / 2) (f (k / 2)) % narrowValues)
      = p.redirectAt (.half k)
        (if k % 2 = 1 then f (k / 2) / narrowValues else f (k / 2) % narrowValues)
    rw [Plan.redirectWord_narrow (by omega) (by omega)]
    rcases Nat.mod_two_eq_zero_or_one k with heven | hodd
    · have hne : ¬k % 2 = 1 := by omega
      rw [if_neg hne, if_neg hne, Nat.mul_comm, Nat.mul_add_mod, Nat.mod_eq_of_lt hbound']
      rfl
    · rw [if_pos hodd, if_pos hodd, if_pos (by omega), Nat.mul_comm, Nat.mul_add_div (by decide),
        Nat.div_eq_of_lt hbound', Nat.add_zero]
      rfl

end Shape

/-! ## Objects at their places -/

namespace Plan

/-- The objects can be moved: their headers are readable, and their references point out of the
spaces or at objects. -/
structure SelfContained (p : Plan) : Prop where
  fits : p.FitsMemory
  sound : p.Sound
  memory_lt : ∀ w, Live p.objs w → p.memory w < wordValues
  linked : ∀ o ∈ p.objs, ∀ b ∈ (p.shape o).allPlaces 0,
    p.InSpace (b.load p.covered (b.get (p.memory (o.start + b.index)))) →
    ∃ o' ∈ p.objs, b.load p.covered (b.get (p.memory (o.start + b.index))) = p.covered.addr o'.start

namespace SelfContained

variable (hp : p.SelfContained)
include hp

/-- References lie within their object. -/
lemma index_lt (ho : o ∈ p.objs) (hb : b ∈ (p.shape o).allPlaces 0) : b.index < o.words := by
  have hfixed := (p.shape o).fixedWords_le
  have hindex := Shape.index_of_mem_allPlaces hb
  rw [hp.sound.words_eq o ho] at hfixed
  omega

lemma refers (ho : o ∈ p.objs) (hb : b ∈ (p.shape o).allPlaces 0) :
    p.Refers b (b.get (p.memory (o.start + b.index))) := by
  have hrefers :=
    hp.sound.refers o ho (b.behind o.start)
      (by rw [Shape.allPlaces_eq]; exact List.mem_map_of_mem hb)
  rwa [refers_behind, Place.get_behind, Place.index_behind] at hrefers

end SelfContained

namespace Compacted

variable {h : Heap MemoryImage} (hc : p.Compacted h)
include hc

/-- An object is at its place, with its references redirected. -/
theorem word_place (hp : p.Valid) (ho : o ∈ p.objs) (hk : k < o.words) :
    h.image.word p.covered (p.forward o.start + k)
      = p.redirectWord (p.shape o) k (p.memory (o.start + k)) := by
  have hcov := Span.covers_add hk
  rw [← hp.forward_add ho hk, hc.placed _ (live_of_mem ho hcov),
    content_of_mem hp.separate (fun _ => id) ho hcov, Nat.add_sub_cancel_left]

variable (hp : p.SelfContained)
include hp

/-- What a place in an object holds is redirected. -/
lemma value_place (ho : o ∈ p.objs) (hb : b ∈ (p.shape o).allPlaces 0) :
    h.image.value p.covered (b.behind (p.place o).start)
      = p.redirectAt b (b.get (p.memory (o.start + b.index))) := by
  rw [MemoryImage.value, Place.get_behind, Place.index_behind]
  exact Shape.get_redirected (f := fun k => p.memory (o.start + k))
    (g := fun k => h.image.word p.covered (p.forward o.start + k)) hp.fits
      (fun b hb => hp.refers ho hb)
    (fun b hb => hp.memory_lt _ (live_of_mem ho (Span.covers_add (hp.index_lt ho hb))))
    (fun b hb => hc.word_place hp.fits.toValid ho (hp.index_lt ho hb)) hb

/-- A reference of an object is redirected. -/
theorem load_place (ho : o ∈ p.objs) (hb : b ∈ (p.shape o).allPlaces 0) :
    b.load p.covered (h.image.value p.covered (b.behind (p.place o).start))
      = p.redirect (b.load p.covered (b.get (p.memory (o.start + b.index)))) := by
  rw [hc.value_place hp ho hb, (hp.refers ho hb).load_redirectAt hp.fits.base_le]

end Compacted

end Plan

/-! ## The objects of the plan of a heap -/

namespace Heap

variable {h : Heap MemoryImage}

/-- The fillers of a plan. -/
noncomputable def planned (h : Heap MemoryImage) (zones : List Zone) (objects : List (List Span))
    (strong : List ℕ) (limiter : Limiter) (maximum : Bool) : List Span :=
  h.planFillers (h.planZones zones (h.live objects strong) limiter maximum) (h.live objects strong)

lemma plan_objs : (h.plan zones objects strong limiter maximum).objs
    = h.planned zones objects strong limiter maximum ++ h.live objects strong := rfl

namespace WellFormed

variable (hw : h.WellFormed zones objects) (hpoints : ∀ a ∈ strong, h.Points objects.flatten a)
include hw hpoints

/-- A live object is not a filler of the plan, and shares no word with one. -/
lemma not_covers_of_planned (ho : o ∈ h.live objects strong)
    (ho' : o' ∈ h.planned zones objects strong limiter maximum) (hx : o.Covers x) :
    ¬o'.Covers x := fun hx' => by
  have hsep := (hw.plan_fits hpoints limiter maximum).separate
  rw [plan_objs] at hsep
  obtain rfl := hsep.eq_of_covers (List.mem_append_right _ ho) (List.mem_append_left _ ho') hx hx'
  exact (List.disjoint_of_nodup_append hsep.nodup) ho' ho

omit hw hpoints in
lemma plan_memory_eq (x : ℕ) : (h.plan zones objects strong limiter maximum).memory x
    = match (h.planned zones objects strong limiter maximum).find? fun o => o.start = x with
      | some o => MemoryImage.fillerHeader o.words
      | none => h.image.word h.covered x :=
  rfl

omit hw hpoints in
/-- Planning changes no word at which no filler starts. -/
lemma plan_memory_of_not_start (hnot : ∀ o ∈ h.planned zones objects strong limiter maximum,
    o.start ≠ x) :
    (h.plan zones objects strong limiter maximum).memory x = h.image.word h.covered x := by
  rw [plan_memory_eq]
  cases hfind : (h.planned zones objects strong limiter maximum).find? fun o => o.start = x with
  | none => rfl
  | some o =>
    exact absurd (by simpa using List.find?_some hfind) (hnot o (List.mem_of_find?_eq_some hfind))

/-- Planning changes no word of a live object. -/
lemma plan_memory (ho : o ∈ h.live objects strong) (hx : o.Covers x) :
    (h.plan zones objects strong limiter maximum).memory x = h.image.word h.covered x :=
  plan_memory_of_not_start fun o' hmem hstart => by
    have hpos :=
      (hw.plan_fits hpoints limiter maximum).separate.words_pos o' (List.mem_append_left _ hmem)
    exact hw.not_covers_of_planned hpoints ho hmem hx (hstart ▸ Span.covers_start hpos)

/-- The header of a filler says its size. -/
lemma plan_memory_of_planned (ho : o ∈ h.planned zones objects strong limiter maximum) :
    (h.plan zones objects strong limiter maximum).memory o.start
      = MemoryImage.fillerHeader o.words := by
  rw [plan_memory_eq]
  cases hfind : (h.planned zones objects strong limiter maximum).find? fun o' =>
    o'.start = o.start with
  | none =>
    have hnone := List.find?_eq_none.1 hfind o ho
    simp at hnone
  | some o' =>
    have hmem := List.mem_of_find?_eq_some hfind
    have hstart : o'.start = o.start := by simpa using List.find?_some hfind
    have hsep := (hw.plan_fits hpoints limiter maximum).separate
    rw [hsep.eq_of_start (List.mem_append_left _ hmem) (List.mem_append_left _ ho) hstart]

lemma plan_shape (ho : o ∈ h.live objects strong) :
    (h.plan zones objects strong limiter maximum).shape o = o.shape (h.image.word h.covered) := by
  have hpos := hw.separate.words_pos o (mem_live.1 ho).mem
  exact congrArg (fun word => Span.shape o
    fun _ => word) (hw.plan_memory hpoints ho (Span.covers_start hpos))

/-- A filler has no references. -/
lemma plan_places_of_planned (ho : o ∈ h.planned zones objects strong limiter maximum) :
    ((h.plan zones objects strong limiter maximum).shape o).allPlaces 0 = [] := by
  have hpos :=
    (hw.plan_fits hpoints limiter maximum).separate.words_pos o (List.mem_append_left _ ho)
  rw [Plan.shape, hw.plan_memory_of_planned hpoints ho, MemoryImage.ofHeader_fillerHeader hpos]
  rfl

/-- What a reference of a live object holds when the cycle begins. -/
lemma plan_load (ho : o ∈ h.live objects strong)
    (hb : b ∈ (o.shape (h.image.word h.covered)).allPlaces 0) :
    b.get ((h.plan zones objects strong limiter maximum).memory (o.start + b.index))
      = h.image.value h.covered (b.behind o.start) := by
  have hfixed := (o.shape (h.image.word h.covered)).fixedWords_le
  rw [(hw.shape_eq (mem_live.1 ho).mem).2] at hfixed
  have hindex := Shape.index_of_mem_allPlaces hb
  rw [MemoryImage.value, Place.get_behind, Place.index_behind,
    hw.plan_memory hpoints ho (Span.covers_add (show b.index < o.words by omega))]

omit hpoints in
/-- What a live object refers to is live. -/
lemma live_of_place (ho : o ∈ h.live objects strong)
    (hb : b ∈ (o.shape (h.image.word h.covered)).allPlaces 0)
    (hin : h.isInSpace (b.load h.covered (h.image.value h.covered (b.behind o.start))) = true) :
    ∃ o' ∈ h.live objects strong, b.load h.covered (h.image.value h.covered (b.behind o.start))
      = h.covered.addr o'.start := by
  have hreach := mem_live.1 ho
  have hplace : b.behind o.start ∈ (o.shape (h.image.word h.covered)).allPlaces o.start := by
    rw [Shape.allPlaces_eq]
    exact List.mem_map_of_mem hb
  obtain ⟨_, _, hpoints⟩ := hw.load_eq hreach.mem hplace
  rw [Place.load_behind] at hpoints
  obtain ⟨o', ho', heq⟩ := hpoints hin
  refine ⟨o', mem_live.2 (.link hreach ho' ((hw.loads_iff hreach.mem).2 ⟨_, hplace, ?_⟩)), heq⟩
  rw [Place.load_behind]
  exact heq

/-- The objects of the plan can be moved. -/
theorem plan_selfContained (limiter : Limiter) (maximum : Bool) :
    (h.plan zones objects strong limiter maximum).SelfContained where
  fits := hw.plan_fits hpoints limiter maximum
  sound := hw.plan_sound hpoints limiter maximum
  memory_lt w hlive := by
    obtain ⟨h₁, hbegins⟩ := hw.plan_begins hpoints limiter maximum
    obtain ⟨o, ho, hcov⟩ := hlive
    obtain ⟨z, hz, hholds⟩ := hbegins.fits.holds o ho
    have hord := hbegins.fits.ordered z hz
    rw [← hbegins.memory]
    exact hbegins.backs.word_lt w
      (lt_of_lt_of_le hcov.2 (le_trans hholds.2 (le_trans hord.top_le_last hord.last_le)))
  linked o ho b hb hin := by
    rcases List.mem_append.1 ho with hmem | hmem
    · rw [hw.plan_places_of_planned hpoints hmem] at hb
      exact absurd hb List.not_mem_nil
    · rw [hw.plan_shape hpoints hmem] at hb
      rw [hw.plan_load hpoints hmem hb] at hin ⊢
      obtain ⟨o', ho', heq⟩ := hw.live_of_place hmem hb (hw.plan_inSpace_iff.1 hin)
      exact ⟨o', List.mem_append_right _ ho', heq⟩

end WellFormed

end Heap

end MarkCompact
