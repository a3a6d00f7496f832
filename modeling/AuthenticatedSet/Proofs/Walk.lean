import AuthenticatedSet.Proofs.Line

/-!
# The way of a search

What a search does on a level is to cut its line in three: what lies left of the seat it arrives at,
what it rests on, and what it does not go up to. It arrives where the level above sent it down,
moves right over seats that the level above does not have, and leaves from the last seat that
passes. So the last seats of all levels are the predecessors behind which an insertion or an erasure
links.

* `Piece`                  -- a line cut where a search arrives and where it stops
* `SkipList.Walks`         -- a trail that leads along the lines of a list in such pieces
* `Layout.piece`           -- the pieces that follow from a layout
* `Carries.walks`          -- a trail of a layout leads along them
* `Reachable.search_walks` -- every search of a reachable list leaves such a trail
-/

namespace AuthenticatedSet

/-! ## 1. Pieces of lines -/

/-- A line cut where a search arrives and where it stops. -/
structure Piece where
  /-- The seats left of where it arrives. -/
  before : List Seat
  /-- The seat it arrives at. -/
  first : Seat
  /-- The seats it moves right onto. -/
  moved : List Seat
  /-- The seats right of where it stops. -/
  after : List Seat

namespace Piece

/-- The seats that the search rests on, from left to right. -/
def rested (piece : Piece) : List Seat := piece.first :: piece.moved

/-- The seat that the search leaves from. -/
def last (piece : Piece) : Seat := piece.moved.getLastD piece.first

/-- The line that was cut. -/
def line (piece : Piece) : List Seat := piece.before ++ piece.rested ++ piece.after

end Piece

/-- The trail leads along the lines of the list, from the top level to the bottom one, each of them
cut in a piece. -/
structure SkipList.Walks (l : SkipList) (reach : Reach) (key : Key) (trail : Trail)
    (piece : Nat → Piece) : Prop where
  /-- The pieces are cut from the lines of the levels. -/
  line : ∀ m < l.height, l.Line m (piece m).line
  /-- There is one stretch for each level, and it is what is rested on there. -/
  stretches : trail.stretches.map Stretch.slots =
    (List.range l.height).map fun m => ((piece m).rested.map Seat.slot).reverse
  /-- The levels come one after the other, the top level first. -/
  order : trail.backward.reverse =
    (List.range l.height).reverse.flatMap fun m => (piece m).rested.map Seat.slot
  /-- The search starts at the left end of the top level. -/
  start : ∀ m, m + 1 = l.height → (piece m).first.slot = l.top.lower
  /-- It goes down from the last seat of a level to the same bound on the next one. -/
  descent : ∀ m, m + 1 < l.height →
    (piece (m + 1)).last.node.down = (piece m).first.slot ∧
      (piece (m + 1)).last.bound = (piece m).first.bound
  /-- It ends where there is no level below. -/
  bottom : (piece 0).last.node.down = .nil
  /-- What it rests on, and what lies left of that, passes. -/
  passes : ∀ m < l.height, ∀ seat ∈ (piece m).before ++ (piece m).rested,
    reach.passes key seat.bound = true
  /-- Nothing right of that does. -/
  stops : ∀ m < l.height, ∀ seat ∈ (piece m).after, reach.passes key seat.bound = false
  /-- The last seat rested on stands at the greatest bound that passes. -/
  greatest : ∀ m < l.height, ∀ seat ∈ (piece m).line, reach.passes key seat.bound = true →
    seat.bound ≤ (piece m).last.bound
  /-- No seat that it moves onto is covered, and the level above has none at its bound. -/
  exposed : ∀ m < l.height, ∀ seat ∈ (piece m).moved, seat.node.isCovered = false ∧
    ∀ line, l.Line (m + 1) line → ∀ above ∈ line, above.bound ≠ seat.bound
  /-- The predecessors on all levels are the last seats. -/
  predecessors : trail.predecessors = (List.range l.height).map fun m => (piece m).last.slot

/-! ## 2. The pieces of a layout -/

/-- What passes on to smaller bounds holds of a first part of a row and of nothing behind it. -/
theorem sorted_eq_filter_append {row : List Bound} {q : Bound → Bool}
    (sorted : row.Pairwise (· < ·)) (mono : ∀ {b c}, b ≤ c → q c = true → q b = true) :
    row.filter q ++ row.filter (!q ·) = row := by
  induction row with
  | nil => rfl
  | cons first rest ih =>
    obtain ⟨least, sorted⟩ := List.pairwise_cons.mp sorted
    cases pass : q first with
    | true =>
      rw [List.filter_cons_of_pos pass, List.filter_cons_of_neg (by simp [pass]), List.cons_append,
        ih sorted]
    | false =>
      have none : ∀ c ∈ first :: rest, q c = false := by
        intro c hc
        refine Bool.eq_false_iff.mpr fun go => ?_
        rcases List.mem_cons.mp hc with rfl | hc
        · simp [pass] at go
        · simp [mono (least c hc).le go] at pass
      rw [List.filter_eq_nil_iff.mpr fun c hc => by simp [none c hc],
        List.filter_eq_self.mpr fun c hc => by simp [none c hc], List.nil_append]

namespace Layout

variable {y : Layout} {l : SkipList} {p : Bound → Bool} {height m : Nat} {k : Key}
  {reach : Reach} {trail : Trail} {seat : Seat}

/-- The row of a level cut at what is reached a level up and at what is reached here. -/
def piece (y : Layout) (p : Bound → Bool) (m : Nat) : Piece where
  before := ((y.row m).filter (· < y.reached p (m + 1))).map (y.seat m)
  first := y.seat m (y.reached p (m + 1))
  moved := (((y.row m).filter (y.reached p (m + 1) < ·)).filter p).map (y.seat m)
  after := ((y.row m).filter (!p ·)).map (y.seat m)

namespace Shaped

theorem reverse_stretch (hy : y.Shaped height) (hp : Downward p) (h : m < height) :
    (y.stretch p m).reverse =
      y.reached p (m + 1) :: ((y.row m).filter (y.reached p (m + 1) < ·)).filter p := by
  rw [stretch, List.reverse_reverse, slice,
    filter_le_eq_cons (hy.sorted m) (hy.reached_succ_mem h),
    List.filter_cons_of_pos (reached_pass hp (m + 1))]

theorem rested_piece (hy : y.Shaped height) (hp : Downward p) (h : m < height) :
    (y.piece p m).rested = (y.stretch p m).reverse.map (y.seat m) := by
  rw [hy.reverse_stretch hp h]
  rfl

/-- A search leaves a level from what it reaches there. -/
theorem last_piece (hy : y.Shaped height) (hp : Downward p) (h : m < height) :
    (y.piece p m).last = y.seat m (y.reached p m) := by
  obtain ⟨rest, first⟩ := hy.stretch_eq_cons hp h
  have rested := hy.rested_piece hp h
  rw [first, List.reverse_cons, List.map_append] at rested
  have last := congrArg (List.getLastD · (y.seat m .lower)) rested
  simpa only [Piece.rested, Piece.last, List.getLastD_cons, List.map_cons, List.map_nil,
    List.getLastD_concat] using last

/-- Nothing is lost in the cut. -/
theorem line_piece (hy : y.Shaped height) (hp : Downward p) (h : m < height) :
    (y.piece p m).line = (y.row m).map (y.seat m) := by
  have mem := hy.reached_succ_mem (p := p) h
  have pass := reached_pass (y := y) hp (m + 1)
  have cut : (y.row m).filter (· < y.reached p (m + 1)) ++ (y.stretch p m).reverse =
      (y.row m).filter p := by
    have split := sorted_eq_filter_append (q := (· < y.reached p (m + 1)))
      ((hy.sorted m).filter p) fun le lt => by
        simpa using lt_of_le_of_lt le (by simpa using lt)
    rw [← split, stretch, List.reverse_reverse, slice, List.filter_filter, List.filter_filter,
      List.filter_filter]
    congr 1
    · refine List.filter_congr fun c _ => ?_
      by_cases lt : c < y.reached p (m + 1)
      · simp [lt, hp.mono lt.le pass]
      · simp [lt]
    · refine List.filter_congr fun c _ => ?_
      rw [Bool.and_comm, ← decide_not]
      simp only [not_lt]
  rw [Piece.line, hy.rested_piece hp h, piece, ← List.map_append, ← List.map_append, cut,
    sorted_eq_filter_append (hy.sorted m) hp.mono]

theorem le_last_piece (hy : y.Shaped height) (hp : Downward p) (h : m < height)
    (mem : seat ∈ (y.piece p m).line) (pass : p seat.bound = true) :
    seat.bound ≤ (y.piece p m).last.bound := by
  rw [hy.line_piece hp h] at mem
  rw [hy.last_piece hp h]
  obtain ⟨b, hb, rfl⟩ := List.mem_map.mp mem
  exact hy.le_reached hb pass

theorem pass_of_mem_rested (hy : y.Shaped height) (hp : Downward p) (h : m < height)
    (mem : seat ∈ (y.piece p m).before ++ (y.piece p m).rested) : p seat.bound = true := by
  rcases List.mem_append.mp mem with left | mem
  · obtain ⟨b, hb, rfl⟩ := List.mem_map.mp left
    have lt : b < y.reached p (m + 1) := by simpa using (List.mem_filter.mp hb).2
    exact hp.mono lt.le (reached_pass hp (m + 1))
  · rw [hy.rested_piece hp h] at mem
    obtain ⟨b, hb, rfl⟩ := List.mem_map.mp mem
    exact (mem_stretch.mp (List.mem_reverse.mp hb)).2.2

/-- What a search moves right onto is not on the level above: otherwise that level would have led
further right. -/
theorem not_mem_of_moved (hy : y.Shaped height)
    (mem : seat ∈ (y.piece p m).moved) :
    seat.bound ∉ y.row (m + 1) ∧ seat.bound ∈ y.row m ∧ p seat.bound = true ∧
      seat = y.seat m seat.bound := by
  obtain ⟨b, hb, rfl⟩ := List.mem_map.mp mem
  obtain ⟨hb, pass⟩ := List.mem_filter.mp hb
  obtain ⟨hb, lt⟩ := List.mem_filter.mp hb
  have lt : y.reached p (m + 1) < b := by simpa using lt
  exact ⟨fun above => (hy.le_reached above pass).not_gt lt, hb, pass, rfl⟩

theorem isCovered_of_moved (hy : y.Shaped height) (hp : Downward p)
    (mem : seat ∈ (y.piece p m).moved) : seat.node.isCovered = false := by
  obtain ⟨absent, hb, pass, same⟩ := hy.not_mem_of_moved mem
  rw [same]
  refine Bool.eq_false_iff.mpr fun covered => ?_
  exact ((hy.isCovered_iff hb).mp covered).elim absent (ne_upper_of_pass hp pass)

end Shaped

/-- **A trail of a layout leads along the pieces of its rows.** -/
theorem Carries.walks (hl : y.Carries l) (ht : y.Trails (reach.passes k) l.height trail) :
    l.Walks reach k trail (y.piece (reach.passes k)) := by
  have hy := hl.shaped
  have hp := reach.passes_downward k
  have stretches : trail.stretches.map Stretch.slots = (List.range l.height).map fun m =>
      ((y.piece (reach.passes k) m).rested.map Seat.slot).reverse := by
    rw [ht]
    refine List.map_congr_left fun m hm => ?_
    rw [hy.rested_piece hp (List.mem_range.mp hm), List.map_map, ← List.map_reverse,
      List.reverse_reverse]
    rfl
  refine ⟨fun m h => ?_, stretches, ?_, fun m top => ?_, fun m h => ?_, ?_,
    fun m h seat mem => hy.pass_of_mem_rested hp h mem, fun m h seat mem => ?_,
    fun m h seat mem => hy.le_last_piece hp h mem, fun m h seat mem => ?_, ?_⟩
  · exact hl.line_iff.mpr ⟨h, hy.line_piece hp h⟩
  · rw [Trail.backward, List.flatMap_def, stretches, List.reverse_flatten, ← List.map_reverse,
      ← List.map_reverse, List.map_map]
    simp only [Function.comp_def, List.reverse_reverse, List.flatMap_def]
  · have arrive : y.reached (reach.passes k) (m + 1) = .lower := hy.reached_beyond top.ge
    rw [hl.lower, ← top, piece, arrive]
    rfl
  · rw [hy.last_piece hp h]
    exact ⟨rfl, rfl⟩
  · rw [hy.last_piece hp hy.positive]
    rfl
  · obtain ⟨b, hb, rfl⟩ := List.mem_map.mp mem
    exact Bool.not_eq_true' _ ▸ (List.mem_filter.mp hb).2
  · refine ⟨hy.isCovered_of_moved hp mem, fun line hline above habove same => ?_⟩
    obtain ⟨-, rfl⟩ := hl.line_iff.mp hline
    obtain ⟨b, hb, rfl⟩ := List.mem_map.mp habove
    exact (hy.not_mem_of_moved mem).1 (same ▸ hb)
  · rw [ht.predecessors hy hp]
    refine List.map_congr_left fun m hm => ?_
    rw [hy.last_piece hp (List.mem_range.mp hm)]
    rfl

end Layout

/-! ## 3. The statement -/

/-- **Every search of a reachable list goes through and leads along its lines**, whether it ends
before the key or goes up to it. -/
theorem Reachable.search_walks {h : Hasher} {l : SkipList} (reachable : Reachable h l)
    (reach : Reach) (key : Key) :
    ∃ trail piece, l.search reach key = .ok trail ∧ l.Walks reach key trail piece := by
  obtain ⟨y, hl, -⟩ := reachable.exists_layout
  obtain ⟨trail, ok, ht⟩ := hl.search reach key
  exact ⟨trail, _, ok, hl.walks ht⟩

theorem search_walks_sample :
    Reachable .byteSum sample ∧ sample.search .below 4 = .ok ⟨⟨⟨6⟩, [⟨1⟩]⟩, [⟨⟨4⟩, []⟩]⟩ ∧
      ∃ piece, sample.Walks .below 4 ⟨⟨⟨6⟩, [⟨1⟩]⟩, [⟨⟨4⟩, []⟩]⟩ piece := by
  obtain ⟨trail, piece, ok, walks⟩ := Reachable.search_walks reachable_sample .below 4
  have found : sample.search .below 4 = .ok ⟨⟨⟨6⟩, [⟨1⟩]⟩, [⟨⟨4⟩, []⟩]⟩ := by decide +kernel
  rw [found] at ok
  cases ok
  exact ⟨reachable_sample, found, piece, walks⟩

end AuthenticatedSet
