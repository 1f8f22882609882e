import MarkCompact.Proofs.Visits

/-!
# Objects and gaps tile a range

The walk that also reports dead words reports, one after the other, the tiles of an interval that
starts where its range does: the objects that start in the range and end in it, and between them the
dead words, in stretches that nothing cuts but the start of the range and the place up to which dead
words count.  It comes to the object that reaches past the end of the range, or else to the next
object behind the range.

Main statement: `iterateWithDead_tiles`.
-/

namespace MarkCompact

variable {objs tiles : List Span} {o : Span} {e : Extent} {a b c d limit : ℕ}

/-- A longest stretch of dead words between words `a` and `c`. -/
structure DeadStretch (objs : List Span) (a c : ℕ) (o : Span) : Prop where
  start_ge : a ≤ o.start
  past_le : o.past ≤ c
  dead : Dead objs o.start o.past
  left : o.start = a ∨ Live objs (o.start - 1)
  right : o.past = c ∨ Live objs o.past

/-- A tile as a walk reports it: one of the objects, or else dead words. -/
def Span.piece (objs : List Span) (e : Extent) (o : Span) : Piece :=
  if o ∈ objs then .live (o.run e) else .dead (o.run e)

/-- The tiles from word `a` up to word `d` are objects and stretches of dead words; stretches are
cut at `a` and `c`. -/
structure PieceTiling (objs : List Span) (a c : ℕ) (tiles : List Span) (d : ℕ) : Prop where
  tiling : Tiling a tiles d
  stretch : ∀ o ∈ tiles, o ∉ objs → DeadStretch objs a c o

/-- An object that starts on the way is one of the tiles. -/
lemma PieceTiling.mem_tiles (h : PieceTiling objs a c tiles d) (hsep : Separate objs)
    (ho : o ∈ objs) (hlow : a ≤ o.start) (hlt : o.start < d) : o ∈ tiles := by
  have hstart := Span.covers_start (hsep.words_pos o ho)
  obtain ⟨tile, htile, hcov⟩ := h.tiling.live hlow hlt
  by_cases hobj : tile ∈ objs
  · rwa [hsep.eq_of_covers ho hobj hstart hcov]
  · exact absurd (live_of_mem ho hstart) ((h.stretch tile htile hobj).dead o.start hcov.1 hcov.2)

/-- Dead words from one place on make up one stretch. -/
lemma DeadStretch.eq_of_start {o' : Span} (h : DeadStretch objs a c o)
    (h' : DeadStretch objs a c o') (hpos : 0 < o.words) (hpos' : 0 < o'.words)
    (hstart : o.start = o'.start) : o = o' := by
  have hle : ∀ {o o' : Span}, DeadStretch objs a c o → DeadStretch objs a c o' → 0 < o.words →
      o.start = o'.start →
      o'.past ≤ o.past := by
    intro o o' h h' hpos hstart
    rcases h.right with hcut | hlive
    · exact hcut ▸ h'.past_le
    · by_contra hlt
      have hpast : o.past = o.start + o.words := rfl
      exact h'.dead o.past (by omega) (not_le.1 hlt) hlive
  have hpast := le_antisymm (hle h' h hpos' hstart.symm) (hle h h' hpos hstart)
  cases o
  cases o'
  simp_all [Span.past]

/-- The objects determine the tiles. -/
lemma Tiling.eq_of_stretches {first : ℕ} {tiles' : List Span} (hsep : Separate objs)
    (h : Tiling a tiles d) (h' : Tiling a tiles' d)
    (hstretch : ∀ o ∈ tiles, o ∉ objs → DeadStretch objs first c o)
    (hstretch' : ∀ o ∈ tiles', o ∉ objs → DeadStretch objs first c o) : tiles = tiles' := by
  induction h generalizing tiles' with
  | nil a =>
    cases h' with
    | nil => rfl
    | cons pos next => exact absurd next.le (by rw [Span.past]; omega)
  | @cons d o rest pos next ih =>
    generalize hstart : o.start = start at h'
    cases h' with
    | nil =>
      have hle := next.le
      rw [Span.past] at hle
      omega
    | @cons _ o' rest' pos' next' =>
      have heq : o = o' := by
        by_cases hobj : o ∈ objs <;> by_cases hobj' : o' ∈ objs
        · exact hsep.eq_of_start hobj hobj' hstart
        · exact absurd (live_of_mem hobj (Span.covers_start pos))
            ((hstretch' o' List.mem_cons_self hobj').dead _ hstart.ge
              (hstart ▸ (Span.covers_start pos').2))
        · exact absurd (live_of_mem hobj' (Span.covers_start pos'))
            ((hstretch o List.mem_cons_self hobj).dead _ hstart.le
              (hstart ▸ (Span.covers_start pos).2))
        · exact (hstretch o List.mem_cons_self hobj).eq_of_start
            (hstretch' o' List.mem_cons_self hobj') pos pos' hstart
      subst heq
      rw [ih next' (fun o'' ho'' => hstretch o'' (List.mem_cons_of_mem _ ho''))
        fun o'' ho'' => hstretch' o'' (List.mem_cons_of_mem _ ho'')]

/-- There is one such tiling. -/
lemma PieceTiling.unique {tiles' : List Span} (h : PieceTiling objs a c tiles d)
    (h' : PieceTiling objs a c tiles' d) (hsep : Separate objs) : tiles = tiles' :=
  h.tiling.eq_of_stretches hsep h'.tiling h.stretch h'.stretch

/-- If the words from `b` up to the end of the tiles are dead, every object that starts below `b`
ends there. -/
lemma PieceTiling.past_le_of_dead (h : PieceTiling objs a c tiles d) (hsep : Separate objs)
    (hbd : b ≤ d) (hdead : Dead objs b d) (ho : StartsIn objs a b o) : o.past ≤ b := by
  obtain ⟨hobj, hlow, hlt⟩ := ho
  have hpast := (h.tiling.bounds (h.mem_tiles hsep hobj hlow (hlt.trans_le hbd))).2
  by_contra hover
  exact hdead b le_rfl (by omega) (live_of_mem hobj ⟨hlt.le, not_le.1 hover⟩)

/-- They are then the objects among the tiles. -/
lemma PieceTiling.mem_iff_of_dead (h : PieceTiling objs a c tiles d) (hsep : Separate objs)
    (hbd : b ≤ d) (hdead : Dead objs b d) (o : Span) :
    o ∈ tiles ∧ o ∈ objs ↔ StartsIn objs a b o ∧ o.past ≤ b := by
  constructor
  · rintro ⟨htile, hobj⟩
    have hpos := hsep.start_lt_past hobj
    obtain ⟨hlow, hpast⟩ := h.tiling.bounds htile
    have hlt : o.start < b := by
      by_contra hge
      exact hdead o.start (not_lt.1 hge) (hpos.trans_le hpast) (live_of_mem hobj ⟨le_rfl, hpos⟩)
    have hstarts : StartsIn objs a b o := ⟨hobj, hlow, hlt⟩
    exact ⟨hstarts, h.past_le_of_dead hsep hbd hdead hstarts⟩
  · rintro ⟨⟨hobj, hlow, hlt⟩, -⟩
    exact ⟨h.mem_tiles hsep hobj hlow (hlt.trans_le hbd), hobj⟩

/-- If the tiles end in front of an object that reaches across the end of the range, the objects
among them are those in front of it. -/
lemma PieceTiling.mem_iff_of_straddler {o' : Span} (h : PieceTiling objs a c tiles o'.start)
    (hsep : Separate objs) (ho' : o' ∈ objs) (hlt : o'.start < b) (hover : b < o'.past) (o : Span) :
    o ∈ tiles ∧ o ∈ objs ↔ StartsIn objs a b o ∧ o.past ≤ b := by
  constructor
  · rintro ⟨htile, hobj⟩
    have hpos := hsep.start_lt_past hobj
    obtain ⟨hlow, hpast⟩ := h.tiling.bounds htile
    exact ⟨⟨hobj, hlow, by omega⟩, by omega⟩
  · rintro ⟨⟨hobj, hlow, hin⟩, hpast⟩
    have hpos := hsep.start_lt_past hobj
    refine ⟨h.mem_tiles hsep hobj hlow ?_, hobj⟩
    rcases hsep.eq_or_apart hobj ho' with rfl | hap | hap <;> omega

/-- What a walk meets from word `a` on, which follows an object or is the first word of the range,
is a tiling. -/
lemma Pieces.exists_tiles {first : ℕ} {pieces : List Piece} (h : Pieces objs e limit a pieces d)
    (hsep : Separate objs) (hfirst : first ≤ a)
    (hopen : a < limit → a = first ∨ Live objs (a - 1) ∨ Starts objs a) :
    ∃ tiles, pieces = tiles.map (·.piece objs e) ∧ Tiling a tiles d
      ∧ ∀ o ∈ tiles, o ∉ objs → DeadStretch objs first limit o := by
  induction h with
  | nil a => exact ⟨[], rfl, .nil a, by simp⟩
  | @live d o rest mem next ih =>
    have hpos := hsep.start_lt_past mem
    obtain ⟨tiles, heq, tiling, hstretch⟩ := ih (hfirst.trans hpos.le) fun _ =>
      Or.inr (Or.inl (live_of_mem mem ⟨by omega, by omega⟩))
    refine ⟨o :: tiles, ?_, .cons (hsep.words_pos o mem) tiling, fun o' ho' hdead => ?_⟩
    · rw [List.map_cons, Span.piece, if_pos mem, heq]
    · rcases List.mem_cons.1 ho' with rfl | hin
      · exact absurd mem hdead
      · exact hstretch o' hin hdead
  | @dead a b d rest gap next ih =>
    have hlt := gap.lt
    have hpast : Span.past ⟨a, b - a⟩ = b := by rw [Span.past]; dsimp only; omega
    have hnot : (⟨a, b - a⟩ : Span) ∉ objs := fun hmem =>
      gap.dead a le_rfl hlt (live_of_mem hmem (Span.covers_start (by dsimp only; omega)))
    have hlive : ∀ {w}, Starts objs w → Live objs w := by
      rintro _ ⟨o, ho, rfl⟩
      exact live_of_mem ho (Span.covers_start (hsep.words_pos o ho))
    obtain ⟨tiles, heq, tiling, hstretch⟩ := ih (hfirst.trans hlt.le) fun hbelow =>
      Or.inr (Or.inr (gap.starts hbelow))
    refine ⟨⟨a, b - a⟩ :: tiles, ?_,
      .cons (o := ⟨a, b - a⟩) (by dsimp only; omega) (hpast.symm ▸ tiling), ?_⟩
    · rw [List.map_cons, Span.piece, if_neg hnot, heq]
    · intro o' ho' hdead
      rcases List.mem_cons.1 ho' with rfl | hin
      · refine ⟨hfirst, hpast.trans_le gap.le_limit, ?_, ?_, ?_⟩
        · rw [hpast]
          exact gap.dead
        · rcases hopen (hlt.trans_le gap.le_limit) with hbottom | hleft | hstarts
          · exact Or.inl hbottom
          · exact Or.inr hleft
          · exact absurd (hlive hstarts) (gap.dead a le_rfl hlt)
        · rw [hpast]
          exact gap.le_limit.eq_or_lt.imp_right fun hbelow => hlive (gap.starts hbelow)
      · exact hstretch o' hin hdead

/-! ## Reports -/

section

variable {α σ ε : Type}

/-- What a walk does for a piece whose visitor always wants more. -/
def reportPiece (visit : Run → StateT σ (Except ε) WalkStatus)
    (visitDead : Run → StateT σ (Except ε) Unit) :
    Piece → StateT σ (Except ε) Unit
  | .live run => discard (visit run)
  | .dead run => visitDead run

/-- If the visitor always wants more, the runs are visited one after the other. -/
lemma visitRuns_eq_forM {visit : α → StateT σ (Except ε) WalkStatus}
    (hnever : ∀ x s status s', visit x s = .ok (status, s') → status = .incomplete)
    (done : WalkOutcome) (xs : List α) :
    visitRuns visit done xs = (do xs.forM fun x => discard (visit x); pure done) := by
  induction xs with
  | nil => rfl
  | cons x rest ih =>
    funext s
    refine (visitRuns_cons visit done x rest s).trans ?_
    rw [ih, List.forM_eq_forM, List.forM_cons, bind_assoc]
    show _ = (visit x s >>= fun answer => pure ((), answer.2)) >>= _
    cases answer : visit x s with
    | error fault => rfl
    | ok result =>
      obtain ⟨status, s'⟩ := result
      obtain rfl := hnever x s status s' answer
      rfl

end

namespace MarkBitmap

variable {m : MarkBitmap} {σ ε : Type} {visit : Run → StateT σ (Except ε) WalkStatus}

/-- A walk whose visitor always wants more reports what it meets. -/
lemma iterateWithDead_eq (visitDead : Run → StateT σ (Except ε) Unit) (hnever : NeverStops visit)
    {walk : Walk Piece} (hwalk : m.piecesIn (m.covered.addr a) (m.covered.addr b)
      (m.covered.addr c) = .ok walk) :
    m.iterateWithDead visit visitDead (m.covered.addr a) (m.covered.addr b) (m.covered.addr c)
      = .ok (do
        walk.runs.forM (reportPiece visit visitDead)
        pure (walk.outcome (m.covered.addr b))) := by
  rw [iterateWithDead, hwalk, ok_bind, roundToWord_addr]
  refine congrArg Except.ok ((visitRuns_eq_forM ?_ _ _).trans ?_)
  · rintro (run | run) s status s' heq
    · exact hnever run s status s' heq
    · obtain ⟨⟨⟩, -, hpure⟩ := bind_eq_ok_iff.1 heq
      cases hpure
      rfl
  · congr 2
    funext piece
    cases piece with
    | live run => rfl
    | dead run =>
      show (fun _ => ()) <$> (visitDead run >>= fun _ => pure WalkStatus.incomplete) = visitDead run
      rw [map_bind]
      simp

/-- A walk over the words from `a` to `b`, with dead words up to `c`, reports the tiles of an
interval from `a` on.  Those that are objects are the objects that start in the range and end in it.
The interval ends where the object starts that reaches past the end of the range, and the walk names
that object; or else where the next object starts, but at `c` at the latest. -/
theorem iterateWithDead_tiles (h : m.Marks objs) (ha : Boundary objs a) (hab : a ≤ b) (hbc : b ≤ c)
    (hc : c ≤ m.covered.words) (visitDead : Run → StateT σ (Except ε) Unit)
    (hnever : NeverStops visit) :
    ∃ tiles d done,
      m.iterateWithDead visit visitDead (m.covered.addr a) (m.covered.addr b) (m.covered.addr c)
        = .ok (do
          (tiles.map (·.piece objs m.covered)).forM (reportPiece visit visitDead)
          pure done)
      ∧ PieceTiling objs a c tiles d
      ∧ (∀ o, o ∈ tiles ∧ o ∈ objs ↔ StartsIn objs a b o ∧ o.past ≤ b)
      ∧ RangeEnd objs m.covered a b done
      ∧ (a < b → done.status = .incomplete → done.source = some (m.covered.addr d))
      ∧ (a < b → done.status = .complete → IsFirst (Starts objs) b c d) := by
  have hsep := h.separate
  obtain rfl | hlt := hab.eq_or_lt
  · -- No word lies in the range, and the walk reports nothing.
    have hnone : m.piecesIn (m.covered.addr a) (m.covered.addr a) (m.covered.addr c)
        = .ok ⟨[], none⟩ := by
      rw [piecesIn, h.bitOf_addr (by omega), h.bitOf_addr hc]
      simp only [ok_bind, le_refl, if_true]
      rfl
    have htiling : PieceTiling objs a c [] a := ⟨.nil a, by simp⟩
    refine ⟨[], a, _, iterateWithDead_eq visitDead hnever hnone, htiling,
      htiling.mem_iff_of_dead hsep le_rfl fun w h1 h2 => by omega, .complete fun o ho =>
        ?_, by omega, by omega⟩
    exact absurd ho.2.2 (not_lt.2 ho.2.1)
  obtain ⟨pieces, d, straddler, hwalk, hpieces, hend⟩ := h.piecesIn_eq ha hlt hbc hc
  obtain ⟨tiles, rfl, tiling, hstretch⟩ := hpieces.exists_tiles hsep le_rfl fun _ => Or.inl rfl
  have htiling : PieceTiling objs a c tiles d := ⟨tiling, hstretch⟩
  refine ⟨tiles, d, _, iterateWithDead_eq visitDead hnever hwalk, htiling, ?_⟩
  rcases hend with ⟨rfl, hbd, hdc, hdead, hnext⟩ | ⟨o, ho, rfl, rfl, hstart, hover⟩
  · refine ⟨htiling.mem_iff_of_dead hsep hbd hdead,
      .complete fun o => htiling.past_le_of_dead hsep hbd hdead,
      fun _ hstatus => absurd hstatus (by simp [Walk.outcome]), fun _ _ => ⟨hbd, hdc, hnext, ?_⟩⟩
    rintro _ h1 h2 ⟨o, ho, rfl⟩
    exact hdead o.start h1 h2 (live_of_mem ho (Span.covers_start (hsep.words_pos o ho)))
  · exact ⟨htiling.mem_iff_of_straddler hsep ho hstart hover,
      .straddler ⟨ho, tiling.le, hstart⟩ hover,
      fun _ _ => rfl, fun _ hstatus => absurd hstatus (by simp [Walk.outcome])⟩

lemma record_neverStops : NeverStops record := by
  rintro run s status s' ⟨⟩
  rfl

/-- Records the dead words that it visits. -/
def recordDead (run : Run) : StateT (List Run) (Except Fault) Unit := fun met =>
  .ok ((), met ++ [run])

/-- Dead words behind the last object of a range go on to the next object, past the end of the range
and of its line. -/
theorem iterateWithDead_tiles_acrossLines : NeverStops record ∧ Boundary [⟨70, 5⟩, ⟨3, 1⟩] 0
    ∧ ∃ m : MarkBitmap, m.Marks [⟨70, 5⟩, ⟨3, 1⟩] ∧ 130 ≤ m.covered.words
    ∧ ∃ walk, m.iterateWithDead record recordDead (m.covered.addr 0) (m.covered.addr 64)
      (m.covered.addr 130) = .ok walk
      ∧ walk [] = .ok (⟨.complete, some (m.covered.addr 64)⟩,
        [⟨m.covered.addr 0, 3⟩, ⟨m.covered.addr 3, 1⟩, ⟨m.covered.addr 4, 66⟩]) := by
  have hbottom : Boundary [⟨70, 5⟩, ⟨3, 1⟩] 0 :=
    fun o ho hcross => absurd hcross.1 (Nat.not_lt_zero _)
  have h₀ : (unmarked ⟨4096, 1040⟩).Marks [] := marks_unmarked (by decide)
  obtain ⟨m₁, -, h₁, hcovered₁⟩ :=
    h₀.mark_eq (o := ⟨3, 1⟩) ⟨by simp, by simp⟩ (by decide) (by decide)
  obtain ⟨m, -, h, hcovered⟩ := h₁.mark_eq (o := ⟨70, 5⟩) ⟨by simp, by simp [Span.Apart, Span.past]⟩
    (by rw [hcovered₁]; decide) (by rw [hcovered₁]; decide)
  have hwords : m.covered.words = 130 := by
    rw [hcovered, hcovered₁]
    rfl
  refine ⟨record_neverStops, hbottom, m, h, by omega, ?_⟩
  obtain ⟨tiles, d, done, hwalk, htiling, -, hend, -, hnext⟩ := iterateWithDead_tiles h hbottom
    (b := 64) (c := 130) (by decide) (by decide) (by omega) recordDead record_neverStops
  obtain rfl : done = ⟨.complete, some (m.covered.addr 64)⟩ := by
    cases hend with
    | complete whole => rfl
    | @straddler o mem lt_past =>
      obtain ⟨ho, -, hlt⟩ := mem
      simp only [List.mem_cons, List.not_mem_nil, or_false] at ho
      rcases ho with rfl | rfl
      · exact absurd hlt (by decide)
      · exact absurd lt_past (by decide)
  have hbehind : ∀ j, 64 ≤ j → j < 70 → ¬Starts [⟨70, 5⟩, ⟨3, 1⟩] j := by
    intro j h1 h2
    simp only [Starts, List.mem_cons, List.not_mem_nil, or_false, exists_eq_or_imp, exists_eq_left]
    omega
  obtain rfl : d = 70 :=
    (hnext (by decide) rfl).eq_of_holds ⟨⟨70, 5⟩, by simp, rfl⟩ (by decide) (by decide) hbehind
  have hdeadIn : ∀ a b, b ≤ 70 → (a < 4 → b ≤ 3) → Dead [⟨70, 5⟩, ⟨3, 1⟩] a b := by
    intro a b hb ha w h1 h2
    simp only [Live, List.mem_cons, List.not_mem_nil, or_false, exists_eq_or_imp, exists_eq_left,
      Span.Covers, Span.past]
    omega
  have hlisted : PieceTiling [⟨70, 5⟩, ⟨3, 1⟩] 0 130 [⟨0, 3⟩, ⟨3, 1⟩, ⟨4, 66⟩] 70 := by
    refine ⟨.cons (o := ⟨0,
      3⟩) (by decide) (.cons (o :=
        ⟨3, 1⟩) (by decide) (.cons (o := ⟨4, 66⟩) (by decide) (.nil 70))),
      fun o ho hdead => ?_⟩
    simp only [List.mem_cons, List.not_mem_nil, or_false] at ho
    rcases ho with rfl | rfl | rfl
    · exact ⟨by decide, by decide, hdeadIn _ _ (by decide) (by decide), by decide, by decide⟩
    · exact absurd hdead (by decide)
    · exact ⟨by decide, by decide, hdeadIn _ _ (by decide) (by decide), by decide, by decide⟩
  obtain rfl := htiling.unique hlisted h.separate
  exact ⟨_, hwalk, rfl⟩

end MarkBitmap

end MarkCompact
