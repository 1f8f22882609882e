import Mathlib.Data.List.Sort
import MarkCompact.Proofs.Addresses
import MarkCompact.Proofs.Walks

/-!
# Objects listed in address order

`Lists P os` says that `os` are the objects with the property `P`, each once and in ascending order,
which determines the list.  The walks over a range list the objects that start in it; where a range
begins, inside of an object or not, makes no difference.

Main statements: `Marks.objectsIn_eq_over` (the walk that does not pass the end of its range) and
`Marks.liveObjects_take` (the walk that can be left after any number of objects).
-/

namespace MarkCompact

variable {objs os os' : List Span} {P : Span → Prop} {o : Span} {a b c k : ℕ}

/-- `os` are the spans with the property `P`, each once and in ascending order. -/
structure Lists (P : Span → Prop) (os : List Span) : Prop where
  ascending : os.Pairwise fun o o' => o.start < o'.start
  mem_iff : ∀ o, o ∈ os ↔ P o

/-- The object starts from word `a` on and before word `b`. -/
def StartsIn (objs : List Span) (a b : ℕ) (o : Span) : Prop :=
  o ∈ objs ∧ a ≤ o.start ∧ o.start < b

namespace Lists

/-- There is one such list. -/
lemma unique (h : Lists P os) (h' : Lists P os') : os = os' :=
  haveI : Std.Irrefl fun o o' : Span => o.start < o'.start := ⟨fun _ => lt_irrefl _⟩
  h.ascending.eq_of_mem_iff h'.ascending fun o => (h.mem_iff o).trans (h'.mem_iff o).symm

lemma congr {Q : Span → Prop} (h : Lists P os) (hiff : ∀ o, P o ↔ Q o) : Lists Q os :=
  ⟨h.ascending, fun o => (h.mem_iff o).trans (hiff o)⟩

/-- No object starts in the range. -/
lemma nil (hnone : ∀ j, a ≤ j → j < b → ¬Starts objs j) : Lists (StartsIn objs a b) [] :=
  ⟨.nil, fun o => iff_of_false List.not_mem_nil
    fun ⟨ho, h1, h2⟩ => hnone o.start h1 h2 ⟨o, ho, rfl⟩⟩

/-- The first object of a range, and those behind it. -/
lemma cons (hsep : Separate objs) (ho : o ∈ objs) (ha : a ≤ o.start) (hb : o.start < b)
    (hnone : ∀ j, a ≤ j → j < o.start → ¬Starts objs j) (h : Lists (StartsIn objs o.past b) os) :
    Lists (StartsIn objs a b) (o :: os) where
  ascending := List.pairwise_cons.2 ⟨fun o' ho' =>
    (hsep.start_lt_past ho).trans_le ((h.mem_iff o').1 ho').2.1, h.ascending⟩
  mem_iff o' := by
    rw [List.mem_cons, h.mem_iff]
    constructor
    · rintro (rfl | ⟨ho', h1, h2⟩)
      · exact ⟨ho, ha, hb⟩
      · exact ⟨ho', (ha.trans (hsep.start_lt_past ho).le).trans h1, h2⟩
    · rintro ⟨ho', h1, h2⟩
      rcases hsep.eq_or_apart ho' ho with heq | hap | hap
      · exact Or.inl heq
      · have hlt := hsep.start_lt_past ho'
        exact absurd ⟨o', ho', rfl⟩ (hnone o'.start h1 (hlt.trans_le hap))
      · exact Or.inr ⟨ho', hap, h2⟩

/-- The objects of two ranges that follow one another. -/
lemma append (h : Lists (StartsIn objs a b) os) (h' : Lists (StartsIn objs b c) os') (hab : a ≤ b)
    (hbc : b ≤ c) :
    Lists (StartsIn objs a c) (os ++ os') where
  ascending := List.pairwise_append.2 ⟨h.ascending, h'.ascending, fun o ho o' ho' =>
    ((h.mem_iff o).1 ho).2.2.trans_le ((h'.mem_iff o').1 ho').2.1⟩
  mem_iff o := by
    rw [List.mem_append, h.mem_iff, h'.mem_iff, StartsIn, StartsIn, StartsIn, ← and_or_left]
    refine and_congr_right fun _ => ?_
    omega

end Lists

/-- The objects of a range can be listed. -/
lemma exists_lists (hsep : Separate objs) (a b : ℕ) : ∃ os, Lists (StartsIn objs a b) os := by
  induction hn : b - a using Nat.strong_induction_on generalizing a with
  | _ n ih =>
    by_cases hex : ∃ i, a ≤ i ∧ i < b ∧ Starts objs i
    · classical
      obtain ⟨h1, h2, o, ho, hfirst⟩ := Nat.find_spec hex
      have hpos := hsep.start_lt_past ho
      obtain ⟨os, hos⟩ := ih (b - o.past) (by omega) o.past rfl
      rw [← hfirst] at h1 h2
      refine ⟨o :: os, hos.cons hsep ho h1 h2 fun j hj1 hj2 hj => ?_⟩
      exact Nat.find_min hex (hfirst ▸ hj2) ⟨hj1, hj2.trans h2, hj⟩
    · exact ⟨[], .nil fun j h1 h2 hj => hex ⟨j, h1, h2, hj⟩⟩

/-- No more objects are listed than there are words. -/
lemma Lists.length_le {n : ℕ} (hsep : Separate objs) (hpast : ∀ o ∈ objs, o.past ≤ n)
    (h : Lists (StartsIn objs a b) os) :
    os.length ≤ n := by
  have hnodup : os.Nodup := h.ascending.imp fun hlt heq => absurd (congrArg Span.start heq) hlt.ne
  have hsub : os ⊆ objs := fun o ho => ((h.mem_iff o).1 ho).1
  exact (List.subperm_of_subset hnodup hsub).length_le.trans (hsep.length_le hpast)

/-! ## Walks -/

/-- The walk over the objects `os` of a range that ends at word `stop`: those that end in the range,
and the one that reaches past its end. -/
def Walk.over (e : Extent) (stop : ℕ) (os : List Span) : Walk Run :=
  ⟨(os.filter (·.past ≤ stop)).map (·.run e), (os.find? (stop < ·.past)).map (e.addr ·.start)⟩

/-- Objects that end in the range are all met. -/
lemma Walk.over_append {e : Extent} {stop : ℕ} (h : ∀ o ∈ os, o.past ≤ stop) :
    Walk.over e stop (os ++ os')
    = ⟨os.map (·.run e) ++ (Walk.over e stop os').runs, (Walk.over e stop os').straddler⟩ := by
  have hall : os.filter (·.past ≤ stop) = os :=
    List.filter_eq_self.2 fun o ho => decide_eq_true (h o ho)
  have hnone : os.find? (stop < ·.past) = none := List.find?_eq_none.2 fun o ho => by
    simpa using h o ho
  simp only [Walk.over, List.filter_append, hall, List.map_append, List.find?_append, hnone,
    Option.none_or]

namespace MarkBitmap.Marks

variable {m : MarkBitmap} {first stop limit tries : ℕ}

/-- The search goes from object to object. -/
lemma collectObjects_eq_over (h : m.Marks objs) (met : List Run)
    (hos : Lists (StartsIn objs first stop) os) (hle : first ≤ stop) (hstop : stop ≤ limit)
    (htries : stop - first < tries) :
    m.collectObjects stop limit tries first met
      = ⟨met.reverse ++ (Walk.over m.covered stop os).runs,
        (Walk.over m.covered stop os).straddler⟩ := by
  induction tries generalizing first met os with
  | zero => omega
  | succ tries ih =>
    have found := h.firstIn_begins (hle.trans hstop)
    rw [collectObjects]
    dsimp only
    by_cases hend : stop ≤ m.begins.firstIn first limit
    · obtain rfl := hos.unique (.nil fun j h1 h2 => found.before j h1 (by omega))
      rw [if_pos hend]
      simp [Walk.over]
    obtain ⟨o, ho, hbeg⟩ := found.holds (by omega)
    have hpos := h.separate.start_lt_past ho
    have hstart := found.start_le
    have hbefore := found.before
    rw [if_neg hend]
    rw [← hbeg] at hend hstart hbefore ⊢
    obtain ⟨rest, hrest⟩ := exists_lists h.separate o.past stop
    obtain rfl := hos.unique (hrest.cons h.separate ho hstart (by omega) hbefore)
    rw [h.firstIn_ends ho ⟨le_refl _, hpos⟩ (by omega)]
    by_cases hover : stop ≤ min (o.past - 1) limit
    · -- No other object starts in the range.
      obtain rfl := hrest.unique (.nil fun j h1 h2 => by omega)
      have hpast : stop < o.past := by omega
      rw [if_pos hover]
      simp [Walk.over, hpast, addrOf_eq]
    · have hpast : o.past ≤ stop := by omega
      have hmin : min (o.past - 1) limit = o.past - 1 := by omega
      rw [if_neg hover, hmin, h.runOf_eq ho, Nat.sub_add_cancel (by omega),
        ih _ hrest hpast (by omega)]
      simp [Walk.over, hpast, not_lt.2 hpast]

/-- A walk from any word on visits the objects that start in the range. -/
theorem objectsIn_eq_over (h : m.Marks objs) (hab : a ≤ b) (hb : b ≤ m.covered.words)
    (hos : Lists (StartsIn objs a b) os) :
    m.objectsIn (m.covered.addr a) (m.covered.addr b) = .ok (Walk.over m.covered b os) := by
  have hsearch := h.le_searchEnd hb
  have hsize : m.searchEnd b ≤ m.begins.size := min_le_right ..
  rw [objectsIn, h.bitOf_addr (hab.trans hb), ok_bind, h.bitOf_addr hb, ok_bind,
    Bitset.checkRange_eq (hab.trans hsearch) hsize, ok_bind,
    h.collectObjects_eq_over [] hos hab hsearch (by omega), List.reverse_nil, List.nil_append]
  rfl

/-- A listing that is left after `k` objects would go on with the others. -/
lemma listObjects_take (h : m.Marks objs) (met : List Run)
    (hos : Lists (StartsIn objs first stop) os) (hfirst : first ≤ m.covered.words)
    (hstop : stop ≤ m.covered.words) :
    ∃ resume, m.listObjects stop k first met
      = .ok (met.reverse ++ (os.take k).map (·.run m.covered), resume)
      ∧ resume ≤ m.covered.words ∧ Lists (StartsIn objs resume stop) (os.drop k) := by
  induction k generalizing first met os with
  | zero => exact ⟨first, by simp [listObjects, pure, Except.pure], hfirst, hos⟩
  | succ k ih =>
    rw [listObjects]
    by_cases hdone : stop ≤ first
    · obtain rfl := hos.unique (.nil fun j h1 h2 => by omega)
      rw [if_pos hdone]
      exact ⟨first, by simp [pure, Except.pure], hfirst, by simpa using hos⟩
    have found := h.firstIn_begins (a := first) (b := stop) (by omega)
    rw [if_neg hdone]
    dsimp only
    by_cases hnone : stop ≤ m.begins.firstIn first stop
    · obtain rfl := hos.unique (.nil fun j h1 h2 => found.before j h1 (by omega))
      rw [if_pos hnone]
      exact ⟨stop, by simp [pure, Except.pure], hstop,
        by simpa using Lists.nil fun j h1 h2 => by omega⟩
    obtain ⟨o, ho, hbeg⟩ := found.holds (by omega)
    have hpos := h.separate.start_lt_past ho
    have hpast := h.past_le o ho
    have hstart := found.start_le
    have hbefore := found.before
    rw [if_neg hnone]
    rw [← hbeg] at hnone hstart hbefore ⊢
    obtain ⟨rest, hrest⟩ := exists_lists h.separate o.past stop
    obtain rfl := hos.unique (hrest.cons h.separate ho hstart (by omega) hbefore)
    rw [h.firstIn_ends ho ⟨le_refl _, hpos⟩ (by rw [h.size_eq]; omega), h.size_eq,
      min_eq_left (by omega), if_neg (by omega), h.runOf_eq ho, Nat.sub_add_cancel (by omega)]
    obtain ⟨resume, heq, hresume, hleft⟩ := ih (o.run m.covered :: met) hrest hpast
    exact ⟨resume, by rw [heq]; simp, hresume, hleft⟩

/-- All objects that start in the range. -/
lemma liveObjects_all (h : m.Marks objs) (ha : a ≤ m.covered.words) (hb : b ≤ m.covered.words)
    (hos : Lists (StartsIn objs a b) os) :
    ∃ resume, m.liveObjects (m.covered.addr a) (m.covered.addr b) none
      = .ok (os.map (·.run m.covered), resume) := by
  obtain ⟨resume, heq, -⟩ := h.listObjects_take (k := m.size + 1) [] hos ha hb
  have hlength := hos.length_le h.separate h.past_le
  rw [List.take_of_length_le (by rw [h.size_eq]; omega)] at heq
  rw [liveObjects, h.bitOf_addr ha, ok_bind, h.bitOf_addr hb, ok_bind, Option.getD_none,
    heq, ok_bind]
  exact ⟨_, rfl⟩

/-- The first `k` of them, and a word from which on the others start. -/
theorem liveObjects_take (h : m.Marks objs) (ha : a ≤ m.covered.words) (hb : b ≤ m.covered.words)
    (hos : Lists (StartsIn objs a b) os) (k : ℕ) : ∃ c, c ≤ m.covered.words
      ∧ m.liveObjects (m.covered.addr a) (m.covered.addr b) (some k)
        = .ok ((os.take k).map (·.run m.covered), m.covered.addr c)
      ∧ Lists (StartsIn objs c b) (os.drop k) := by
  obtain ⟨c, heq, hc, hleft⟩ := h.listObjects_take (k := k) [] hos ha hb
  refine ⟨c, hc, ?_, hleft⟩
  rw [liveObjects, h.bitOf_addr ha, ok_bind, h.bitOf_addr hb, ok_bind, Option.getD_some,
    heq, ok_bind]
  rfl

end MarkBitmap.Marks

end MarkCompact
