import MarkCompact.Proofs.Clearing
import MarkCompact.Proofs.Geometries
import MarkCompact.Proofs.Reservations

/-!
# A collector to begin with

Creating a collector checks how the covered range is divided, that the spaces lie in it one behind
the other, and that the system grants memory for the side tables.  If all of this is so, the tables
of the new collector belong together, and its spaces lie over zones.

Main statements: `Collector.create_eq_ok_iff` (when there is a collector),
`Collector.Creates.orderly` (the first cycle can start from it) and `checkSpaces_of_same` (other
tops do as well).
-/

namespace MarkCompact

variable {e : Extent} {g : Geometry} {settings : Settings} {configs configs' : List SpaceConfig}
  {c c' : SpaceConfig} {a k n previousEnd : ℕ}

/-! ## Reserving memory -/

/-- The system grants less than the limit. -/
lemma lt_of_reserve {what : String} {bytes size : ℕ} (hlt : bytes < 2 ^ 62)
    (h : reserve what bytes pageBytes = .ok size) :
    bytes < mappingLimit := by
  have hword : bytes < wordValues := lt_trans hlt (by decide)
  have hround : max bytes 1 + pageBytes < wordValues / 2 := by
    simp only [wordValues, pageBytes]
    omega
  have hwhole : bytes + pageBytes ≤ wordValues := by
    simp only [wordValues, pageBytes]
    omega
  rw [reserve, bind_eq_ok_iff] at h
  obtain ⟨reserved, hreserved, h⟩ := h
  rw [lift_eq_ok_iff, reservedBytes?_eq hword (Or.inl hround), Except.ok.injEq] at hreserved
  split at hreserved
  case isFalse =>
    subst hreserved
    cases h
  case isTrue hmaps =>
    have hroom := lt_of_systemMaps hmaps
    rw [roomFor, keptBytes_of_le hwhole] at hroom
    have hle := le_pagesOf bytes
    omega

/-! ## Spaces in a covered range -/

/-- Being aligned to a power of two is being a multiple of it. -/
lemma isAligned_iff (hk : k ≤ 63) : Word.isAligned a (2 ^ k) = true ↔ 2 ^ k ∣ a := by
  have hpos := Nat.two_pow_pos k
  have hle : 2 ^ k ≤ 2 ^ 63 := Nat.pow_le_pow_right (by decide) hk
  have hmask : (2 ^ k + (wordValues - 1)) % wordValues = 2 ^ k - 1 := by
    rw [wordValues]
    omega
  rw [Word.isAligned, hmask, Nat.and_two_pow_sub_one_eq_mod, beq_iff_eq, Nat.dvd_iff_mod_eq_zero]

lemma isAligned_word_iff : Word.isAligned a bytesPerWord = true ↔ bytesPerWord ∣ a :=
  isAligned_iff (k := 3) (by decide)

lemma Geometry.isAligned_region_iff (hlimit : g.regionWords < liveLimit) :
    Word.isAligned a g.regionBytes = true ↔ g.regionBytes ∣ a := by
  have hlog : g.regionLog < 27 := by
    rw [g.regionWords_eq] at hlimit
    exact (Nat.pow_lt_pow_iff_right (by decide)).1 hlimit
  rw [g.regionBytes_eq]
  exact isAligned_iff (by omega)

/-- The space lies in the covered range, behind `previousEnd`, and its top lies in it. -/
structure SpaceConfig.Fits (c : SpaceConfig) (e : Extent) (g : Geometry)
    (previousEnd : ℕ) : Prop where
  stop_lt : e.start + e.size < wordValues
  bottom_lt : c.bottom < c.limit
  start_le : e.start ≤ c.bottom
  limit_le : c.limit ≤ e.start + e.size
  bottom_aligned : Word.isAligned (c.bottom - e.start) g.regionBytes = true
  limit_aligned : Word.isAligned (c.limit - e.start) g.regionBytes = true
  bottom_le : c.bottom ≤ c.top
  top_le : c.top ≤ c.limit
  top_aligned : Word.isAligned c.top bytesPerWord = true
  previous_le : previousEnd ≤ c.bottom

/-- The zone of a space, which has no dense prefix. -/
def Space.zone (s : Space) (e : Extent) (g : Geometry) : Zone where
  first := (s.bottom - e.start) / g.regionBytes
  keep := (s.bottom - e.start) / g.regionBytes
  last := (s.limit - e.start) / g.regionBytes
  top := (s.top - e.start) / bytesPerWord

/-- The space as a host hands it over. -/
def Space.config (s : Space) : SpaceConfig :=
  ⟨s.name, s.bottom, s.limit, s.top, s.deadRatio⟩

/-- A space that fits lies over its zone. -/
lemma Space.over_zone {s : Space} (hfits : s.config.Fits e g previousEnd)
    (hlimit : g.regionWords < liveLimit) (haligned : bytesPerWord ∣ e.start)
    (hstarts : s.starts.covered = ⟨s.bottom, s.limit - s.bottom⟩) :
    s.Over e g.regionWords (s.zone e g) ∧ (s.zone e g).Ordered g.regionWords e.words := by
  have hstop := hfits.stop_lt
  have hstart : e.start ≤ s.bottom := hfits.start_le
  have hlt : s.bottom < s.limit := hfits.bottom_lt
  have hle : s.limit ≤ e.start + e.size := hfits.limit_le
  have hbelow : s.bottom ≤ s.top := hfits.bottom_le
  have habove : s.top ≤ s.limit := hfits.top_le
  have hpos := g.regionWords_pos
  have hbytes : ∀ q, g.regionBytes * q = 8 * (q * g.regionWords) := fun q => by
    rw [Geometry.regionBytes, bytesPerWord]
    ring
  have hwhole : 0 < g.regionBytes := Nat.mul_pos hpos (by decide)
  obtain ⟨first, hfirst : s.bottom - e.start = _⟩ :=
    (g.isAligned_region_iff hlimit).1 hfits.bottom_aligned
  obtain ⟨last, hlast : s.limit - e.start = _⟩ :=
    (g.isAligned_region_iff hlimit).1 hfits.limit_aligned
  obtain ⟨top, htop : s.top = _⟩ := isAligned_word_iff.1 hfits.top_aligned
  obtain ⟨start, haligned⟩ := haligned
  have hzone : s.zone e g = ⟨first, first, last, top - start⟩ := by
    simp only [Space.zone, Zone.mk.injEq]
    rw [hfirst, hlast, Nat.mul_div_cancel_left _ hwhole, Nat.mul_div_cancel_left _ hwhole]
    refine ⟨rfl, rfl, rfl, ?_⟩
    rw [bytesPerWord] at htop haligned ⊢
    omega
  rw [hbytes] at hfirst hlast
  rw [bytesPerWord] at htop haligned
  rw [hzone]
  have hwords : e.words = e.size / 8 := rfl
  have hmul : first * g.regionWords < last * g.regionWords := by omega
  refine ⟨⟨?_, ?_, ?_, ?_, le_of_lt hmul, ?_⟩,
    ⟨lt_of_mul_lt_mul_right hmul (Nat.zero_le _), le_rfl, ?_, ?_, ?_⟩⟩
  · simp only [Extent.addr_eq]
    omega
  · simp only [Extent.addr_eq]
    omega
  · simp only [Extent.addr_eq]
    omega
  · simp only [hstarts, Extent.addr_eq, Extent.mk.injEq]
    omega
  · simp only [Extent.addr_eq]
    omega
  · show first * g.regionWords ≤ top - start
    omega
  · show top - start ≤ last * g.regionWords
    omega
  · show last * g.regionWords ≤ e.words
    omega

namespace Heap

lemma checkSpace_eq_ok_iff : checkSpace e g previousEnd c = .ok () ↔ c.Fits e g previousEnd := by
  simp only [checkSpace, refuse_bind, ite_refuse_eq_ok_iff, bind_eq_ok_iff, lift_eq_ok_iff,
    Extent.stop, Word.add_eq_ok_iff]
  constructor
  · rintro ⟨h1, _, ⟨h2, rfl⟩, h3, h4, h5, h6, _⟩
    have halign := not_not.1 h4
    have htop := not_or.1 (fun h => h5 (h.elim Or.inl fun h => Or.inr (Or.inl h)))
    have haligned := not_not.1 fun h => h5 (Or.inr (Or.inr h))
    exact ⟨h2, by omega, by omega, by omega, halign.1, halign.2, by omega, by omega,
      haligned, by omega⟩
  · intro h
    have h1 := h.bottom_lt
    have h2 := h.start_le
    have h3 := h.limit_le
    have h4 := h.bottom_le
    have h5 := h.top_le
    have h6 := h.previous_le
    refine ⟨by omega, _, ⟨h.stop_lt, rfl⟩, by omega, not_not.2 ⟨h.bottom_aligned, h.limit_aligned⟩,
      ?_, by omega, rfl⟩
    rintro (hlt | hlt | hunaligned)
    · omega
    · omega
    · exact hunaligned h.top_aligned

lemma checkSpaces_cons_iff {rest : List SpaceConfig} :
    checkSpaces e g previousEnd (c :: rest) = .ok ()
    ↔ c.Fits e g previousEnd ∧ checkSpaces e g c.limit rest = .ok () := by
  rw [checkSpaces, bind_eq_ok_iff]
  constructor
  · rintro ⟨⟨⟩, h, hrest⟩
    exact ⟨checkSpace_eq_ok_iff.1 h, hrest⟩
  · rintro ⟨h, hrest⟩
    exact ⟨(), checkSpace_eq_ok_iff.2 h, hrest⟩

/-- Spaces that pass the check lie one behind the other. -/
lemma checkSpaces_spec (h : checkSpaces e g previousEnd configs = .ok ()) :
    (∀ c ∈ configs, c.Fits e g previousEnd) ∧ configs.Pairwise fun c c' => c.limit ≤ c'.bottom := by
  induction configs generalizing previousEnd with
  | nil => exact ⟨fun _ hc => absurd hc List.not_mem_nil, .nil⟩
  | cons c rest ih =>
    obtain ⟨hfits, hrest⟩ := checkSpaces_cons_iff.1 h
    obtain ⟨hall, hpairwise⟩ := ih hrest
    refine ⟨fun c' hc' => ?_, .cons (fun c' hc' => (hall c' hc').previous_le) hpairwise⟩
    rcases List.mem_cons.1 hc' with rfl | hmem
    · exact hfits
    · have hle := hfits.previous_le
      have hlt := hfits.bottom_lt
      have hbehind := (hall c' hmem).previous_le
      exact { hall c' hmem with previous_le := by omega }

/-- Whether spaces pass the check depends on where they lie and on their tops being in them. -/
lemma checkSpaces_of_same (h : checkSpaces e g previousEnd configs = .ok ())
    (hsame : List.Forall₂ (fun c c' : SpaceConfig =>
      c'.bottom = c.bottom ∧ c'.limit = c.limit ∧ c'.bottom ≤ c'.top ∧ c'.top ≤ c'.limit
        ∧ Word.isAligned c'.top bytesPerWord = true) configs configs') :
    checkSpaces e g previousEnd configs' = .ok () := by
  induction hsame generalizing previousEnd with
  | nil => rfl
  | @cons c c' _ _ hc _ ih =>
    obtain ⟨hfits, hrest⟩ := checkSpaces_cons_iff.1 h
    obtain ⟨hbottom, hlimit, hle, htop, haligned⟩ := hc
    refine checkSpaces_cons_iff.2 ⟨?_, hlimit ▸ ih hrest⟩
    exact ⟨hfits.stop_lt, by rw [hbottom, hlimit]; exact hfits.bottom_lt, hbottom ▸ hfits.start_le,
      hlimit ▸ hfits.limit_le, hbottom ▸ hfits.bottom_aligned, hlimit ▸ hfits.limit_aligned, hle,
      htop, haligned, hbottom ▸ hfits.previous_le⟩

/-! ## A new heap -/

/-- The system grants memory for the side tables. -/
def Grants (e : Extent) (g : Geometry) : Prop :=
  (∃ size, reserve "mark bitmap" (MarkBitmap.storageBytes e) pageBytes = .ok size)
    ∧ (∃ size, reserve "region table" (g.regionCount * RegionTable.regionRecordBytes) pageBytes
      = .ok size)
    ∧ ∃ size, reserve "block table" (g.blockCount * RegionTable.blockRecordBytes) pageBytes
      = .ok size

/-- A heap in which nothing is marked and nothing is planned. -/
def fresh {μ : Type} (e : Extent) (g : Geometry) (configs : List SpaceConfig) (image : μ) :
    Heap μ where
  covered := e
  geometry := g
  bitmap := .unmarked e
  table := .empty e g
  spaces := configs.map Space.ofConfig
  image := image

theorem create_eq_ok_iff {μ : Type} {image : μ} {h : Heap μ} : create e g configs image = .ok h
    ↔ configs ≠ [] ∧ checkSpaces e g e.start configs = .ok () ∧ Grants e g
      ∧ e.size = g.coveredBytes ∧ h = fresh e g configs image := by
  simp only [create, refuse_bind, ite_refuse_eq_ok_iff, throw_bind, ite_throw_eq_ok_iff,
    bind_eq_ok_iff, not_not]
  constructor
  · rintro ⟨hne, ⟨⟩, hspaces, _, hbitmap, hsize, _, hregions, _, hblocks, heq⟩
    cases heq
    exact ⟨fun h => hne (h ▸ rfl), hspaces, ⟨⟨_, hbitmap⟩, ⟨_, hregions⟩, _, hblocks⟩, hsize, rfl⟩
  · rintro ⟨hne, hspaces, ⟨⟨_, hbitmap⟩, ⟨_, hregions⟩, _, hblocks⟩, hsize, rfl⟩
    exact ⟨fun h => hne (List.isEmpty_iff.1 h), (), hspaces, _, hbitmap, hsize, _, hregions, _,
      hblocks, rfl⟩

/-- The zones of the spaces, which have no dense prefixes. -/
def zones {μ : Type} (h : Heap μ) : List Zone :=
  h.spaces.map fun s => s.zone h.covered h.geometry

end Heap

/-! ## A new collector -/

namespace Collector

/-- There is a collector with these settings over these spaces. -/
structure Creates (settings : Settings) (e : Extent) (g : Geometry)
    (configs : List SpaceConfig) : Prop where
  geometry : Geometry.ofSettings settings e.size = .ok g
  nonempty : configs ≠ []
  fit : Heap.checkSpaces e g e.start configs = .ok ()
  grants : Heap.Grants e g

/-- A collector that has not run any cycle. -/
def fresh {μ : Type} (settings : Settings) (e : Extent) (g : Geometry) (configs : List SpaceConfig)
    (image : μ) :
    Collector μ where
  settings
  heap :=
    { Heap.fresh e g configs image with
      log := (startRecords settings (Heap.fresh e g configs image)).reverse }
  limiter := .ofPercent settings.deadWoodMean settings.deadWoodDeviation

theorem create_eq_ok_iff {μ : Type} {image : μ} {x : Collector μ} :
    create settings e configs image = .ok x
    ↔ ∃ g, Creates settings e g configs ∧ x = fresh settings e g configs image := by
  simp only [create, bind_eq_ok_iff, Heap.create_eq_ok_iff]
  constructor
  · rintro ⟨g, hg, _, ⟨hne, hfit, hgrants, _, rfl⟩, heq⟩
    cases heq
    exact ⟨g, ⟨hg, hne, hfit, hgrants⟩, rfl⟩
  · rintro ⟨g, ⟨hg, hne, hfit, hgrants⟩, rfl⟩
    obtain ⟨_, _, hsize⟩ := Geometry.ofSettings_eq_ok hg
    exact ⟨g, hg, _, ⟨hne, hfit, hgrants, hsize, rfl⟩, rfl⟩

namespace Creates

variable (h : Creates settings e g configs)
include h

/-- A collector does as well if the tops are moved within the spaces. -/
lemma of_same (hsame : List.Forall₂ (fun c c' : SpaceConfig =>
      c'.bottom = c.bottom ∧ c'.limit = c.limit ∧ c'.bottom ≤ c'.top ∧ c'.top ≤ c'.limit
        ∧ Word.isAligned c'.top bytesPerWord = true) configs configs') :
          Creates settings e g configs' where
  geometry := h.geometry
  nonempty := fun hnil => h.nonempty (List.forall₂_nil_right_iff.1 (hnil ▸ hsame))
  fit := Heap.checkSpaces_of_same h.fit hsame
  grants := h.grants

lemma stop_lt : e.start + e.size < wordValues := by
  obtain ⟨c, hc⟩ := List.exists_mem_of_ne_nil _ h.nonempty
  exact ((Heap.checkSpaces_spec h.fit).1 c hc).stop_lt

/-- The tables leave room in the address space. -/
lemma laid : (RegionTable.empty e g).Laid := by
  obtain ⟨_, hlimit, hsize⟩ := Geometry.ofSettings_eq_ok h.geometry
  have hstop := h.stop_lt
  obtain ⟨_, hreserved⟩ := h.grants.1
  refine RegionTable.laid_empty hstop hsize ?_ hlimit
  have hbytes : MarkBitmap.storageBytes e = 16 * ((e.size / 8 + 63) / 64) := rfl
  rw [wordValues] at hstop ⊢
  have hgranted := lt_of_reserve (by omega) hreserved
  rw [hbytes, mappingLimit] at hgranted
  rw [liveLimit] at hlimit
  rw [Geometry.regionBytes, bytesPerWord]
  omega

/-- A space of the new collector lies over its zone. -/
lemma ofConfig_over (haligned : bytesPerWord ∣ e.start) (hc : c ∈ configs) :
    (Space.ofConfig c).Over e g.regionWords ((Space.ofConfig c).zone e g)
      ∧ ((Space.ofConfig c).zone e g).Ordered g.regionWords e.words := by
  obtain ⟨_, hlimit, _⟩ := Geometry.ofSettings_eq_ok h.geometry
  exact Space.over_zone (s := Space.ofConfig c) ((Heap.checkSpaces_spec h.fit).1 c hc) hlimit
    haligned rfl

/-- The first cycle can start from a new collector. -/
theorem orderly {μ : Type} (haligned : bytesPerWord ∣ e.start) (image : μ) :
    (fresh settings e g configs image).heap.Orderly []
    (fresh settings e g configs image).heap.zones where
  consistent := ⟨h.laid, MarkBitmap.marks_unmarked h.stop_lt, rfl, rfl, rfl⟩
  spaces_over := by
    show List.Forall₂ _ (configs.map Space.ofConfig) ((configs.map Space.ofConfig).map _)
    exact List.forall₂_map_right_iff.2 (List.forall₂_map_left_iff.2 (List.forall₂_map_right_iff.2
      (List.forall₂_same.2 fun c hc => (h.ofConfig_over haligned hc).1)))
  ordered z hz := by
    obtain ⟨s, hs, rfl⟩ := List.mem_map.1 hz
    obtain ⟨c, hc, rfl⟩ := List.mem_map.1 hs
    exact (h.ofConfig_over haligned hc).2
  keep_eq z hz := by
    obtain ⟨s, _, rfl⟩ := List.mem_map.1 hz
    rfl
  apart := List.pairwise_map.2 (List.pairwise_map.2 ((Heap.checkSpaces_spec h.fit).2.imp fun hle =>
    Or.inl (Nat.div_le_div_right (Nat.sub_le_sub_right hle _))))
  encloses _ ho := absurd ho List.not_mem_nil
  outside r _ := by
    rw [show (fresh settings e g configs image).heap.table.regions.get r = {} from
      Table.get_fresh ..]

end Creates

end Collector

end MarkCompact
