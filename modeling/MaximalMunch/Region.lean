import MaximalMunch.Edge

/-!
# Overlap regions

The edges that leave a set of states may overlap. A `Region` is a maximal run of consecutive code points
that lie under the same edges, together with the states these edges lead to.

- `Region.ofEdges` : the regions of a list of edges, in ascending order
- `Region.sweep`   : the same for edges that ascend by their first code points

The sweep takes the edges that begin first, emits the region up to the next point where an edge ends or
another begins, and goes on with what is left of them. Each step removes an edge or lets the edges in
front catch up with a later one, so `n` edges make fewer than `2 * n` regions.
-/

namespace MaximalMunch

/-- A run of code points and the distinct states that are reached over it. -/
structure Region extends Range where
  targets : List Nat
  deriving DecidableEq, Repr

namespace Region

/-- The part of an edge behind `stop`, if there is one. -/
def beyond? (stop : Int) (e : Edge) : Option Edge :=
  if e.hi ≤ stop then none else some { e with lo := stop + 1 }

/-- The smallest end among `e` and `es`. -/
def leastEnd (e : Edge) (es : List Edge) : Int :=
  es.foldl (fun m o => min m o.hi) e.hi

/-- Where the region that begins with `e :: same` ends, if the edges of `later` begin behind it. -/
def stop (e : Edge) (same later : List Edge) : Int :=
  match later with
  | [] => leastEnd e same
  | l :: _ => min (leastEnd e same) (l.lo - 1)

/-- How many edges do not begin where the first one does, counted from the first such edge. -/
def waiting : List Edge → Nat
  | [] => 0
  | e :: es => (es.dropWhile fun o => o.lo == e.lo).length

/-! ## Progress of the sweep -/

theorem leastEnd_mem (e : Edge) (es : List Edge) : ∃ o ∈ e :: es, o.hi = leastEnd e es := by
  induction es generalizing e with
  | nil => exact ⟨e, by simp, rfl⟩
  | cons o os ih =>
    by_cases h : e.hi ≤ o.hi
    · obtain ⟨x, hx, hxe⟩ := ih e
      refine ⟨x, ?_, ?_⟩
      · rcases List.mem_cons.1 hx with rfl | hx
        · simp
        · simp [hx]
      · rw [hxe]; simp only [leastEnd, List.foldl_cons, Int.min_eq_left h]
    · obtain ⟨x, hx, hxe⟩ := ih o
      refine ⟨x, List.mem_cons_of_mem _ hx, ?_⟩
      rw [hxe]
      simp only [leastEnd, List.foldl_cons, Int.min_eq_right (by omega : o.hi ≤ e.hi)]

theorem waiting_lt_length {es : List Edge} (h : es ≠ []) : waiting es < es.length := by
  cases es with
  | nil => exact absurd rfl h
  | cons e es =>
    have : (es.dropWhile fun o => o.lo == e.lo).length ≤ es.length :=
      (List.dropWhile_sublist _).length_le
    simp only [waiting, List.length_cons]
    omega

/-- Edges with one common begin do not wait for each other. -/
theorem waiting_append_le {cut later : List Edge} {a : Int} (hne : cut ≠ [])
    (hlo : ∀ e ∈ cut, e.lo = a) :
    waiting (cut ++ later) ≤ (later.dropWhile fun o => o.lo == a).length := by
  cases cut with
  | nil => exact absurd rfl hne
  | cons e es =>
    have he : e.lo = a := hlo e (by simp)
    have hes : ∀ o ∈ es, (o.lo == a) = true := by
      intro o ho
      simpa using hlo o (by simp [ho])
    simp only [waiting, List.cons_append, he]
    exact Nat.le_of_eq (congrArg List.length (List.dropWhile_append_of_pos hes))

theorem lo_of_beyond? {s : Int} {e o : Edge} (h : beyond? s e = some o) : o.lo = s + 1 := by
  unfold beyond? at h
  split at h
  · exact absurd h (by simp)
  · simp only [Option.some.injEq] at h
    rw [← h]

theorem length_filterMap_beyond?_lt {s : Int} {es : List Edge} (h : ∃ e ∈ es, e.hi ≤ s) :
    (es.filterMap (beyond? s)).length < es.length := by
  obtain ⟨e, he, hs⟩ := h
  induction es with
  | nil => exact absurd he (by simp)
  | cons o os ih =>
    rcases List.mem_cons.1 he with rfl | he
    · have : beyond? s e = none := by simp [beyond?, hs]
      have hle := List.length_filterMap_le (beyond? s) os
      simp only [List.filterMap_cons, this, List.length_cons]
      omega
    · have hlt := ih he
      cases hb : beyond? s o with
      | none => simp only [List.filterMap_cons, hb, List.length_cons]; omega
      | some x => simp only [List.filterMap_cons, hb, List.length_cons]; omega

/-- What one step of the sweep leaves to do. -/
def remainder (e : Edge) (same later : List Edge) : List Edge :=
  (e :: same).filterMap (beyond? (stop e same later)) ++ later

theorem lo_of_mem_remainder_front {e o : Edge} {same later : List Edge}
    (ho : o ∈ (e :: same).filterMap (beyond? (stop e same later))) :
    o.lo = stop e same later + 1 := by
  obtain ⟨x, _, hx⟩ := List.mem_filterMap.1 ho
  exact lo_of_beyond? hx

theorem waiting_remainder_le (e : Edge) (same later : List Edge) :
    waiting (remainder e same later) ≤ later.length := by
  unfold remainder
  by_cases hc : (e :: same).filterMap (beyond? (stop e same later)) = []
  · rw [hc, List.nil_append]
    by_cases hl : later = []
    · simp [hl, waiting]
    · exact Nat.le_of_lt (waiting_lt_length hl)
  · -- What is left of the edges in front begins behind the region, all in one place.
    exact Nat.le_trans (waiting_append_le hc fun o ho => lo_of_mem_remainder_front ho)
      (List.dropWhile_sublist _).length_le

/-- If no edge ends where the region does, another one begins behind it. -/
theorem exists_of_none_ends {e : Edge} {same later : List Edge}
    (h : ¬∃ o ∈ e :: same, o.hi ≤ stop e same later) :
    ∃ l ls, later = l :: ls ∧ stop e same later = l.lo - 1 := by
  obtain ⟨x, hx, hxe⟩ := leastEnd_mem e same
  cases later with
  | nil =>
    refine absurd ⟨x, hx, ?_⟩ h
    simp only [stop]
    omega
  | cons l ls =>
    refine ⟨l, ls, rfl, ?_⟩
    by_cases hmin : leastEnd e same ≤ l.lo - 1
    · refine absurd ⟨x, hx, ?_⟩ h
      simp only [stop]
      omega
    · simp only [stop]
      omega

theorem waiting_remainder_lt {e : Edge} {same later : List Edge}
    (h : ¬∃ o ∈ e :: same, o.hi ≤ stop e same later) :
    waiting (remainder e same later) < later.length := by
  obtain ⟨l, ls, hl, hstop⟩ := exists_of_none_ends h
  -- The first edge goes on behind the region.
  have hc : (e :: same).filterMap (beyond? (stop e same later)) ≠ [] := by
    intro hnil
    have hnone : beyond? (stop e same later) e = none :=
      List.filterMap_eq_nil_iff.1 hnil e (by simp)
    unfold beyond? at hnone
    split at hnone
    · rename_i hle
      exact h ⟨e, by simp, hle⟩
    · exact absurd hnone (by simp)
  -- The first edge of `later` begins there too, so it no longer waits.
  refine Nat.lt_of_le_of_lt (waiting_append_le hc fun o ho => lo_of_mem_remainder_front ho) ?_
  rw [hstop, hl, List.dropWhile_cons_of_pos (by simp)]
  exact Nat.lt_succ_of_le (List.dropWhile_sublist _).length_le

theorem remainder_progress (e : Edge) (same later : List Edge) :
    (remainder e same later).length + waiting (remainder e same later) <
      (e :: same).length + later.length + later.length := by
  have hle := waiting_remainder_le e same later
  have hlen : (remainder e same later).length =
      ((e :: same).filterMap (beyond? (stop e same later))).length + later.length := by
    simp [remainder]
  by_cases h : ∃ o ∈ e :: same, o.hi ≤ stop e same later
  · -- Some edge ends with the region and is gone.
    have := length_filterMap_beyond?_lt h
    omega
  · -- No edge is gone, but one less waits.
    have := waiting_remainder_lt h
    have := List.length_filterMap_le (beyond? (stop e same later)) (e :: same)
    omega

/-! ## The sweep -/

/-- The regions of edges that ascend by their first code points. -/
def sweep : List Edge → List Region
  | [] => []
  | e :: es =>
    let same := es.takeWhile fun o => o.lo == e.lo
    let later := es.dropWhile fun o => o.lo == e.lo
    { lo := e.lo
      hi := stop e same later
      targets := ((e :: same).map Edge.target).eraseDups } :: sweep (remainder e same later)
termination_by es => es.length + waiting es
decreasing_by
  have hsplit : (es.takeWhile fun o => o.lo == e.lo).length +
      (es.dropWhile fun o => o.lo == e.lo).length = es.length := by
    rw [← List.length_append, List.takeWhile_append_dropWhile]
  have hstep := remainder_progress e (es.takeWhile fun o => o.lo == e.lo)
    (es.dropWhile fun o => o.lo == e.lo)
  simp only [waiting, List.length_cons] at hstep ⊢
  omega

/-- The regions of a list of edges. Edges that begin together keep their order, and with it the order of
the targets. -/
def ofEdges (es : List Edge) : List Region :=
  sweep (es.mergeSort fun a b => decide (a.lo ≤ b.lo))

end Region

end MaximalMunch
