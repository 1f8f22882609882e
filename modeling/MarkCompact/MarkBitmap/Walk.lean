import MarkCompact.MarkBitmap.Basic

/-!
# Walks over live objects

Three ways to go through the marked objects of a range in address order.

* `MarkBitmap.iterate` hands each object that starts and ends in the range to a visitor until the
  visitor stops, which may not claim that the walk is complete; an object that reaches past the end
  is not visited but named.
* `MarkBitmap.iterateWithDead` also hands every gap between objects to a second visitor.
* `MarkBitmap.liveObjects` lists the objects that start in the range, and where a later walk would
  go on.

The bitmap does not change during a walk, so the first two are a list of runs, `objectsIn` and
`piecesIn`, that is then visited from the front.  The searches look at whole lines of sixty-four
bits, which is why `searchEnd` rounds the end of a range up.
-/

namespace MarkCompact

/-- What a visitor, or a whole walk, reports. -/
inductive WalkStatus where
  /-- The visitor wants more objects, or the last object extends past the range. -/
  | incomplete
  /-- Every object in the range was visited. -/
  | complete
  /-- The visitor's destination is exactly full. -/
  | full
  /-- The current object does not fit in what remains of the destination. -/
  | wouldOverflow
  deriving DecidableEq, Repr

/-- How a walk ended.  `source` is where a later walk goes on; a walk that its visitor stopped names
no such place. -/
structure WalkOutcome where
  status : WalkStatus
  source : Option Nat
  deriving DecidableEq, Repr

/-- A live object or a gap. -/
inductive Piece where
  | live (run : Run)
  | dead (run : Run)
  deriving DecidableEq, Repr

/-- The runs of a range and the object, if any, that starts in the range and ends past it. -/
structure Walk (α : Type) where
  runs : List α
  straddler : Option Nat
  deriving Repr

/-- The outcome of a walk that was not stopped, over a range that ends at `stop`. -/
def Walk.outcome {α : Type} (w : Walk α) (stop : Nat) : WalkOutcome :=
  match w.straddler with
  | some addr => ⟨.incomplete, some addr⟩
  | none => ⟨.complete, some stop⟩

/-- Visits runs from the front until the visitor reports something else than `incomplete`. -/
def visitRuns {m : Type → Type} [Monad m] {α : Type} (visit : α → m WalkStatus)
    (done : WalkOutcome) :
    List α → m WalkOutcome
  | [] => pure done
  | run :: rest => do
    match ← visit run with
    | .incomplete => visitRuns visit done rest
    | status => pure ⟨status, none⟩

/-- The visitor of a walk over live objects alone.  An answer that stops the walk says that the
destination is full or that the object does not fit; `complete` is for the walk to say. -/
def refuseComplete {n : Type → Type} [Monad n] [MonadExceptOf Fault n] {α : Type}
    (visit : α → n WalkStatus) (run : α) : n WalkStatus := do
  let status ← visit run
  if status = .complete then throw .stoppedComplete else pure status

namespace MarkBitmap

/-- Where a search for a range that ends at bit `stop` ends: the next multiple of a line, or the end
of the bitmap. -/
def searchEnd (m : MarkBitmap) (stop : Nat) : Nat :=
  min ((stop + 63) / 64 * 64) m.size

/-! ## Live objects only -/

/-- The objects from bit `first` on, at most `tries` of them, behind those already `met`, which are
listed last first. -/
def collectObjects (m : MarkBitmap) (stop limit : Nat) :
    (tries first : Nat) → (met : List Run) → Walk Run
  | 0, _, met => ⟨met.reverse, none⟩
  | tries + 1, first, met =>
    let beg := m.begins.firstIn first limit
    if stop ≤ beg then ⟨met.reverse, none⟩
    else
      let last := m.ends.firstIn beg limit
      if stop ≤ last then ⟨met.reverse, some (m.addrOf beg)⟩
      else m.collectObjects stop limit tries (last + 1) (m.runOf beg last :: met)

/-- The objects that start from `addr` on and end before `stop`. -/
def objectsIn (m : MarkBitmap) (addr stop : Nat) : Except Fault (Walk Run) := do
  let first ← m.bitOf addr
  let last ← m.bitOf stop
  m.begins.checkRange first (m.searchEnd last)
  pure (m.collectObjects last (m.searchEnd last) (last - first + 1) first [])

/-- The address of the word that the end of a range lies in. -/
def roundToWord (m : MarkBitmap) (stop : Nat) : Nat :=
  m.addrOf ((stop - m.covered.start) / bytesPerWord)

/-- Visits the objects that start from `addr` on and end before `stop`. -/
def iterate {n : Type → Type} [Monad n] [MonadExceptOf Fault n] (m : MarkBitmap)
    (visit : Run → n WalkStatus) (addr stop : Nat) : Except Fault (n WalkOutcome) := do
  let walk ← m.objectsIn addr stop
  pure (visitRuns (refuseComplete visit) (walk.outcome (m.roundToWord stop)) walk.runs)

/-! ## Live objects and gaps -/

/-- The gap from bit `first` to the object start found at bit `next`, cut at bit `deadStop`. -/
def gap (m : MarkBitmap) (first next deadStop : Nat) : Piece :=
  .dead (m.runOf first (min next deadStop - 1))

/-- Objects and the gaps behind them, from the object at bit `beg` on, at most `tries` objects,
behind the pieces already `met`, which are listed last first. -/
def collectPieces (m : MarkBitmap) (stop deadStop : Nat) :
    (tries beg : Nat) → (met : List Piece) → Walk Piece
  | 0, _, met => ⟨met.reverse, none⟩
  | tries + 1, beg, met =>
    if stop ≤ beg then ⟨met.reverse, none⟩
    else
      let last := m.ends.firstIn beg (m.searchEnd stop)
      if stop ≤ last then ⟨met.reverse, some (m.addrOf beg)⟩
      else
        let met := Piece.live (m.runOf beg last) :: met
        if deadStop ≤ last + 1 then ⟨met.reverse, none⟩
        else
          let next := m.begins.firstIn (last + 1) (m.searchEnd deadStop)
          let met := if last + 1 < next then m.gap (last + 1) next deadStop :: met else met
          m.collectPieces stop deadStop tries next met

/-- The objects that start from `addr` on and end before `stop`, with the gap before the first and
the gaps behind each, the last one up to `deadStop`.  A range that opens with a gap must open before
`deadStop`. -/
def piecesIn (m : MarkBitmap) (addr stop deadStop : Nat) : Except Fault (Walk Piece) := do
  let first ← m.bitOf addr
  let last ← m.bitOf stop
  let deadLast ← m.bitOf deadStop
  if last ≤ first then pure ⟨[], none⟩
  else if m.begins.mem first then
    pure (m.collectPieces last deadLast (last - first + 1) first [])
  else
    m.begins.checkRange (first + 1) (m.searchEnd deadLast)
    if deadLast ≤ first then throw .subOverflow
    let beg := m.begins.firstIn (first + 1) (m.searchEnd deadLast)
    pure (m.collectPieces last deadLast (last - first + 1) beg [m.gap first beg deadLast])

/-- Visits objects and gaps in address order; only the visitor of objects can stop the walk. -/
def iterateWithDead {n : Type → Type} [Monad n] (m : MarkBitmap) (visit : Run → n WalkStatus)
    (visitDead : Run → n Unit) (addr stop deadStop : Nat) : Except Fault (n WalkOutcome) := do
  let walk ← m.piecesIn addr stop deadStop
  let visitPiece : Piece → n WalkStatus
    | .live run => visit run
    | .dead run => do
      visitDead run
      pure .incomplete
  pure (visitRuns visitPiece (walk.outcome (m.roundToWord stop)) walk.runs)

/-! ## Listing, with a place to go on -/

/-- At most `limit` objects from bit `first` on, behind those already `met`, which are listed last
first, and the bit where a later walk goes on. -/
def listObjects (m : MarkBitmap) (stop : Nat) :
    (limit first : Nat) → (met : List Run) → Except Fault (List Run × Nat)
  | 0, first, met => pure (met.reverse, first)
  | limit + 1, first, met =>
    if stop ≤ first then pure (met.reverse, first)
    else
      let beg := m.begins.firstIn first stop
      if stop ≤ beg then pure (met.reverse, stop)
      else
        let last := m.ends.firstIn beg m.size
        if m.size ≤ last then throw (.noObjectEnd (m.addrOf beg))
        else m.listObjects stop limit (last + 1) (m.runOf beg last :: met)

/-- At most `limit` of the objects that start from `addr` on and before `stop`, and the address
where a later walk goes on; all of them without a limit. -/
def liveObjects (m : MarkBitmap) (addr stop : Nat) (limit : Option Nat) :
    Except Fault (List Run × Nat) := do
  let first ← m.bitOf addr
  let last ← m.bitOf stop
  let (runs, resume) ← m.listObjects last (limit.getD (m.size + 1)) first []
  pure (runs, m.addrOf resume)

end MarkBitmap

end MarkCompact
