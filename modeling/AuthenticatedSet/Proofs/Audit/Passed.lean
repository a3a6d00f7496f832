import AuthenticatedSet.Proofs.Line

/-!
# What a passed audit says

An audit that has nothing to object has followed every level from its left end to its right end. So
any store at all whose list passes has ascending lines, one for each level, each holding the bounds
of the one above, and the keys of the list are those of its bottom line.

Of a down link the audit sees only the bound that it leads to. That the bound stands on the line of
the level below has been checked, but not that the link leads there: it can lead to another slot
with this bound, such as a free one, since a slot set free keeps the bound. Where the links that a
search follows do lead to the lines, the search finds what is there.

* `Check.passes_bind_iff`    -- checks in a row
* `SkipList.Connected`       -- what a passed audit says about the links of a list
* `SkipList.Lands`           -- a down link leads to the line of the level below
* `SkipList.Grounded`        -- those that a search for a key follows do
* `passed_audit`             -- the whole statement
* `passed_audit_stray_links` -- a list that passes, with a link to a free slot
-/

namespace AuthenticatedSet

/-! ## 1. Checks that have passed -/

namespace Check

variable {α β : Type} {check : Check α} {next : α → Check β} {a a' : α} {b : β}

theorem passes_bind_iff :
    (check >>= next).Passes b ↔ ∃ a, check.Passes a ∧ (next a).Passes b := by
  constructor
  · intro h
    rcases check with _ | _ | a
    · cases h
    · cases h
    · exact ⟨a, rfl, h⟩
  · rintro ⟨a, h, h'⟩
    exact h.bind h'

theorem passes_lift_iff {x : Except Fault α} : (liftM x : Check α).Passes a ↔ x = .ok a := by
  constructor
  · intro h
    cases x with
    | error => cases h
    | ok a' =>
      cases h
      rfl
  · exact passes_lift

theorem passes_pure_iff : (pure a : Check α).Passes a' ↔ a = a' := by
  constructor
  · rintro ⟨⟩
    rfl
  · rintro rfl
    exact passes_pure a

theorem passes_require_iff {condition : Bool} {violation : Violation} {u : Unit} :
    (require condition violation).Passes u ↔ condition = true := by
  constructor
  · intro h
    cases condition with
    | false => cases h
    | true => rfl
  · intro h
    exact passes_require h violation

/-- What follows a check that is made only sometimes has passed with it. -/
theorem passes_of_guarded {c : Prop} [Decidable c] {first : Check α} {rest : Check β}
    (pass : (if c then first >>= fun _ => rest else rest).Passes b) : rest.Passes b := by
  split at pass
  · obtain ⟨-, -, pass⟩ := passes_bind_iff.mp pass
    exact pass
  · exact pass

end Check

/-! ## 2. One level -/

namespace Store

/-- What is checked of the down link of a node on this level. -/
def LinksDown (s : Store) : (level : Nat) → Node → Prop
  | 0, node => node.down = .nil
  | _ + 1, node =>
    node.down ≠ .nil ∧ ∃ below, s.get node.down = .ok below ∧ below.bound = node.bound

variable {s : Store} {h : Hasher} {level limit : Nat} {above bounds : List Bound} {i last : Slot}
  {node : Node}

theorem linksDown_of_passes (pass : (s.auditDown level node).Passes ()) :
    s.LinksDown level node := by
  cases level with
  | zero =>
    show node.down = .nil
    exact of_decide_eq_true (Check.passes_require_iff.mp pass)
  | succ m =>
    rw [auditDown, if_neg (Nat.succ_ne_zero m)] at pass
    obtain ⟨_, leads, pass⟩ := Check.passes_bind_iff.mp pass
    obtain ⟨below, found, pass⟩ := Check.passes_bind_iff.mp pass
    exact ⟨of_decide_eq_true (Check.passes_require_iff.mp leads), below,
      Check.passes_lift_iff.mp found, of_decide_eq_true (Check.passes_require_iff.mp pass)⟩

/-- What has been checked of the first node where a level has been followed from there. -/
theorem auditRun_cases
    (pass : (s.auditRun h level above limit i).Passes (last, bounds)) :
    ∃ node, s.get i = .ok node ∧ s.LinksDown level node ∧
      ((node.bound = .upper ∧ bounds = [.upper]) ∨
        ∃ next limit' rest, node.bound ≠ .upper ∧ s.get node.right = .ok next ∧
          node.bound < next.bound ∧ limit = limit' + 1 ∧ bounds = node.bound :: rest ∧
          (s.auditRun h level above limit' node.right).Passes (last, rest)) := by
  -- the limit counts only after the checks of the node, which are the same in both cases
  rcases limit with _ | limit
  all_goals
    obtain ⟨node, here, pass⟩ := Check.passes_bind_iff.mp pass
    obtain ⟨_, -, pass⟩ := Check.passes_bind_iff.mp pass
    obtain ⟨_, down, pass⟩ := Check.passes_bind_iff.mp pass
    refine ⟨node, Check.passes_lift_iff.mp here, linksDown_of_passes down, ?_⟩
    by_cases ends : node.bound = .upper
    · rw [if_pos ends] at pass
      obtain ⟨_, -, pass⟩ := Check.passes_bind_iff.mp pass
      obtain ⟨-, rfl⟩ := Prod.mk.inj (Check.passes_pure_iff.mp pass)
      exact .inl ⟨ends, by rw [ends]⟩
    rw [if_neg ends] at pass
    obtain ⟨next, right, pass⟩ := Check.passes_bind_iff.mp pass
    obtain ⟨_, order, pass⟩ := Check.passes_bind_iff.mp pass
    obtain ⟨digest, -, pass⟩ := Check.passes_bind_iff.mp pass
    obtain ⟨_, -, pass⟩ := Check.passes_bind_iff.mp pass
  · cases pass
  · obtain ⟨⟨last', rest⟩, onward, pass⟩ := Check.passes_bind_iff.mp pass
    obtain ⟨rfl, rfl⟩ := Prod.mk.inj (Check.passes_pure_iff.mp pass)
    exact .inr ⟨next, limit, rest, ends, Check.passes_lift_iff.mp right,
      of_decide_eq_true (Check.passes_require_iff.mp order), rfl, rfl, onward⟩

/-- **One level**: where it has been followed to its end, there is an ascending line. -/
theorem line_of_auditRun (pass : (s.auditRun h level above limit i).Passes (last, bounds)) :
    ∃ line, s.Line i line ∧ line.map Seat.bound = bounds ∧ bounds.Pairwise (· < ·) ∧
      (∀ seat ∈ line, s.LinksDown level seat.node) ∧ line.length ≤ limit + 1 := by
  -- each node followed takes one bound, so the bounds carry the induction
  induction bounds generalizing i limit with
  | nil =>
    obtain ⟨node, -, -, ⟨-, same⟩ | ⟨_, _, _, -, -, -, -, same, -⟩⟩ := auditRun_cases pass
    · cases same
    · cases same
  | cons b bounds ih =>
    obtain ⟨node, here, down, ⟨ends, same⟩ | ⟨next, limit', rest, inner, right, order, rfl, same,
      onward⟩⟩ := auditRun_cases pass
    · obtain ⟨rfl, rfl⟩ := List.cons.inj same
      exact ⟨[⟨i, node⟩], .last here ends, congrArg (fun b => [b]) ends,
        List.pairwise_singleton _ _, by simpa using down, by simp⟩
    · obtain ⟨rfl, rfl⟩ := List.cons.inj same
      obtain ⟨line, run, rfl, ascending, downs, short⟩ := ih onward
      obtain ⟨next', seats, right', rfl⟩ := run.eq_cons
      rw [right] at right'
      cases right'
      refine ⟨⟨i, node⟩ :: ⟨node.right, next⟩ :: seats, .cons here inner run, rfl, ?_, ?_, ?_⟩
      · -- the next bound is the least of the rest
        refine List.pairwise_cons.mpr ⟨fun b hb => ?_, ascending⟩
        rcases List.mem_cons.mp hb with rfl | hb
        · exact order
        · exact order.trans ((List.pairwise_cons.mp ascending).1 b hb)
      · intro seat hs
        rcases List.mem_cons.mp hs with rfl | hs
        · exact down
        · exact downs seat hs
      · simpa using short

end Store

/-! ## 3. All levels -/

namespace SkipList

/-- What a passed audit says about a level and its line. -/
structure Followed (l : SkipList) (level : Nat) (line : List Seat) : Prop where
  seats : l.Line level line
  ascending : (line.map Seat.bound).Pairwise (· < ·)
  starts : ∃ first rest, line = first :: rest ∧ first.bound = .lower
  down : ∀ seat ∈ line, l.store.LinksDown level seat.node
  short : line.length ≤ l.store.nodes.size + 1

/-- What a passed audit says about the links of a list. -/
structure Connected (l : SkipList) : Prop where
  followed : ∀ level < l.height, ∃ line, l.Followed level line
  /-- A bound of a level stands on the level below too. -/
  nested : ∀ {level upper lower}, l.Line (level + 1) upper → l.Line level lower →
    ∀ seat ∈ upper, ∃ below ∈ lower, below.bound = seat.bound

variable {l : SkipList} {h : Hasher} {level level' limit : Nat} {above : List Bound} {i : Slot}
  {line : List Seat} {k : Key}

/-- One level passes, and then those below. -/
theorem followed_of_auditLevels (start : l.LeftEnd level i)
    (pass : (l.auditLevels h (level + 1) i above).Passes ()) :
    ∃ node line, l.store.get i = .ok node ∧ l.Followed level line ∧
      (∀ b ∈ above, b ∈ line.map Seat.bound) ∧
      (l.auditLevels h level node.down (line.map Seat.bound)).Passes () := by
  rw [auditLevels] at pass
  obtain ⟨_, -, pass⟩ := Check.passes_bind_iff.mp pass
  obtain ⟨node, here, pass⟩ := Check.passes_bind_iff.mp pass
  obtain ⟨_, lower, pass⟩ := Check.passes_bind_iff.mp pass
  obtain ⟨⟨last, bounds⟩, run, pass⟩ := Check.passes_bind_iff.mp pass
  have here := Check.passes_lift_iff.mp here
  have lower : node.bound = .lower := of_decide_eq_true (Check.passes_require_iff.mp lower)
  obtain ⟨line, seats, rfl, ascending, down, short⟩ := Store.line_of_auditRun run
  refine ⟨node, line, here, ⟨⟨i, start, seats⟩, ascending, ?_, down, short⟩, ?_⟩
  · obtain ⟨node', rest, here', rfl⟩ := seats.eq_cons
    rw [here] at here'
    cases here'
    exact ⟨_, _, rfl, lower⟩
  -- the checks of the right end and of the count say nothing about links
  have pass := Check.passes_of_guarded pass
  cases missing : above.find? (!(line.map Seat.bound).contains ·) with
  | some bound =>
    rw [missing] at pass
    cases pass
  | none =>
    rw [missing] at pass
    refine ⟨fun b hb => ?_, Check.passes_of_guarded pass⟩
    simpa using List.find?_eq_none.mp missing b hb

/-- **All levels** from one down: each has been followed, and has the bounds of the one above. -/
theorem all_followed_of_auditLevels (start : l.LeftEnd level i)
    (pass : (l.auditLevels h (level + 1) i above).Passes ()) :
    (∃ line, l.Followed level line ∧ ∀ b ∈ above, b ∈ line.map Seat.bound) ∧
      ∀ m < level, ∃ upper lower, l.Followed (m + 1) upper ∧ l.Followed m lower ∧
        ∀ b ∈ upper.map Seat.bound, b ∈ lower.map Seat.bound := by
  induction level generalizing i above with
  | zero =>
    obtain ⟨-, line, -, followed, complete, -⟩ := followed_of_auditLevels start pass
    exact ⟨⟨line, followed, complete⟩, fun m below => absurd below (Nat.not_lt_zero m)⟩
  | succ level ih =>
    obtain ⟨node, line, here, followed, complete, pass⟩ := followed_of_auditLevels start pass
    obtain ⟨⟨next, followed', complete'⟩, below⟩ := ih (.down start here) pass
    refine ⟨⟨line, followed, complete⟩, fun m lt => ?_⟩
    rcases Nat.lt_succ_iff_lt_or_eq.mp lt with lt | rfl
    · exact below m lt
    · exact ⟨line, next, followed, followed', complete'⟩

/-- **A passed audit has followed all levels.** -/
theorem connected_of_audit (root : l.top.lower ≠ .nil) (pass : (l.audit h).Passes ()) :
    l.Connected ∧ 0 < l.height := by
  rcases Nat.eq_zero_or_pos l.height with none | positive
  · rw [audit, none] at pass
    exact absurd (of_decide_eq_true (Check.passes_require_iff.mp pass)) root
  · obtain ⟨top, hh⟩ := Nat.exists_eq_add_one.mpr positive
    rw [audit, hh] at pass
    obtain ⟨⟨line, followed, -⟩, below⟩ := all_followed_of_auditLevels (.top hh.symm) pass
    refine ⟨⟨fun m lt => ?_, fun {m upper lower} hu hl seat hs => ?_⟩, by omega⟩
    · rcases Nat.lt_succ_iff_lt_or_eq.mp (hh ▸ lt) with lt | rfl
      · obtain ⟨-, lower, -, followed, -⟩ := below m lt
        exact ⟨lower, followed⟩
      · exact ⟨line, followed⟩
    · obtain ⟨_, start, _⟩ := id hu
      have := start.lt_height
      obtain ⟨upper', lower', fu, fl, nested⟩ := below m (by omega)
      obtain rfl := hu.unique fu.seats
      obtain rfl := hl.unique fl.seats
      exact List.mem_map.mp (nested _ (List.mem_map_of_mem hs))

end SkipList

/-! ## 4. The keys -/

/-- The keys from a slot on are those of its line. -/
theorem Store.Line.keysFrom {s : Store} {i : Slot} {line : List Seat} {limit : Nat}
    (run : s.Line i line) (inner : ∀ seat ∈ line, seat.bound ≠ .lower)
    (enough : line.length ≤ limit + 1) :
    s.keysFrom limit i = .ok (line.filterMap fun seat => seat.bound.key?) := by
  induction run generalizing limit with
  | last here ends =>
    have none : ∀ i, Seat.bound ⟨i, _⟩ = .upper := fun _ => ends
    unfold Store.keysFrom
    rw [here, ok_bind, ends, List.filterMap_cons, none]
    rfl
  | @cons i node rest here ne onward ih =>
    have first : node.bound ≠ .lower := inner ⟨i, node⟩ List.mem_cons_self
    obtain ⟨k, key⟩ : ∃ k, node.bound = .key k := by
      cases bound : node.bound <;> simp_all
    obtain ⟨next, rest', -, same⟩ := onward.eq_cons
    have positive : 0 < rest.length := by simp [same]
    obtain ⟨limit', rfl⟩ : ∃ limit', limit = limit' + 1 :=
      Nat.exists_eq_add_one.mpr (by simp at enough; omega)
    have rest := ih (fun seat mem => inner seat (List.mem_cons_of_mem _ mem))
      (Nat.le_of_succ_le_succ enough)
    have head : Seat.bound ⟨i, node⟩ = .key k := key
    rw [Store.keysFrom, here, ok_bind, key, List.filterMap_cons, head]
    show (s.keysFrom limit' node.right >>= _) = _
    rw [rest]
    rfl

namespace SkipList

variable {l : SkipList} {level level' limit : Nat} {i : Slot} {line : List Seat} {k : Key}

/-- A slot that a level starts in starts its line. -/
theorem Connected.line_of_leftEnd (hl : l.Connected) (start : l.LeftEnd level i) :
    ∃ node rest, l.Followed level (⟨i, node⟩ :: rest) ∧ l.store.get i = .ok node ∧
      node.bound = .lower ∧ l.store.LinksDown level node ∧ l.store.Line node.right rest := by
  obtain ⟨line, followed⟩ := hl.followed level start.lt_height
  obtain ⟨i', start', run⟩ := followed.seats
  obtain rfl := start.unique start'
  obtain ⟨first, rest', found, lower⟩ := followed.starts
  obtain ⟨node, rest, here, rfl⟩ := run.eq_cons
  obtain ⟨rfl, rfl⟩ := List.cons.inj found
  refine ⟨node, rest, followed, here, lower, followed.down _ List.mem_cons_self, ?_⟩
  cases run with
  | last _ ends =>
    have lower : node.bound = .lower := lower
    rw [ends] at lower
    cases lower
  | cons _ _ onward => exact onward

/-- Going down from a left end leads to that of the bottom level. -/
theorem Connected.lowest (hl : l.Connected) (start : l.LeftEnd level i) (enough : level ≤ limit) :
    ∃ j node, l.LeftEnd 0 j ∧ l.store.get j = .ok node ∧ l.store.lowest limit i = .ok node := by
  induction level generalizing limit i with
  | zero =>
    obtain ⟨node, rest, -, here, -, bottom, -⟩ := hl.line_of_leftEnd start
    have bottom : node.down = .nil := bottom
    refine ⟨i, node, start, here, ?_⟩
    unfold Store.lowest
    rw [here, ok_bind, if_pos bottom]
    rfl
  | succ level ih =>
    obtain ⟨node, rest, -, here, -, ⟨leads, -⟩, -⟩ := hl.line_of_leftEnd start
    obtain ⟨limit, rfl⟩ : ∃ limit', limit = limit' + 1 := Nat.exists_eq_add_one.mpr (by omega)
    obtain ⟨j, bottom, start', found, ok⟩ := ih (.down start here) (Nat.le_of_succ_le_succ enough)
    refine ⟨j, bottom, start', found, ?_⟩
    rw [Store.lowest, here, ok_bind, if_neg leads]
    exact ok

/-- No two levels start in one slot: the way down from there would have two lengths. -/
theorem Connected.level_unique (hl : l.Connected) (start : l.LeftEnd level i)
    (start' : l.LeftEnd level' i) : level = level' := by
  obtain ⟨node, -, -, here, -, down, -⟩ := hl.line_of_leftEnd start
  obtain ⟨node', -, -, here', -, down', -⟩ := hl.line_of_leftEnd start'
  rw [here] at here'
  cases here'
  induction level generalizing level' i node with
  | zero =>
    cases level' with
    | zero => rfl
    | succ => exact absurd down down'.1
  | succ level ih =>
    cases level' with
    | zero => exact absurd down' down.1
    | succ level' =>
      obtain ⟨below, -, -, found, -, links, -⟩ := hl.line_of_leftEnd (.down start here)
      obtain ⟨below', -, -, found', -, links', -⟩ := hl.line_of_leftEnd (.down start' here)
      rw [found] at found'
      cases found'
      exact congrArg (· + 1) (ih (.down start here) (.down start' here) _ found links links')

/-- There are no more levels than slots. -/
theorem Connected.height_le (hl : l.Connected) : l.height ≤ l.store.nodes.size := by
  have starts : ∀ m, ∃ i, m < l.height → l.LeftEnd m i := by
    intro m
    by_cases below : m < l.height
    · obtain ⟨line, followed⟩ := hl.followed m below
      obtain ⟨i, start, -⟩ := followed.seats
      exact ⟨i, fun _ => start⟩
    · exact ⟨.nil, fun lt => absurd lt below⟩
  choose start starts using starts
  have nodup : ((List.range l.height).map start).Nodup := by
    refine List.Nodup.map_on (fun m hm n hn same => ?_) List.nodup_range
    have hm := starts m (List.mem_range.mp hm)
    have hn := starts n (List.mem_range.mp hn)
    exact hl.level_unique hm (same ▸ hn)
  have exist : ∀ i ∈ (List.range l.height).map start,
      i.index.toNat < l.store.nodes.size := by
    intro i hi
    obtain ⟨m, hm, rfl⟩ := List.mem_map.mp hi
    obtain ⟨_, -, -, here, -⟩ := hl.line_of_leftEnd (starts m (List.mem_range.mp hm))
    exact Store.lt_size_of_get here
  simpa using Store.length_le nodup exist

/-- **The keys of the list** are those of its bottom line. -/
theorem Connected.keys (hl : l.Connected) (bottom : l.Line 0 line) :
    l.keys = .ok (line.filterMap fun seat => seat.bound.key?) := by
  obtain ⟨_, start, _⟩ := id bottom
  obtain ⟨top, hh⟩ := Nat.exists_eq_add_one.mpr start.lt_height
  have few := hl.height_le
  obtain ⟨j, node, start, here, ok⟩ := hl.lowest (.top hh.symm)
    (show top ≤ l.store.nodes.size by omega)
  obtain ⟨node', rest, followed, here', lower, -, onward⟩ := hl.line_of_leftEnd start
  rw [here] at here'
  cases here'
  obtain rfl := bottom.unique followed.seats
  have ascending := (List.pairwise_cons.mp followed.ascending).1
  have inner : ∀ seat ∈ rest, seat.bound ≠ .lower := by
    intro seat mem
    have lt : node.bound < seat.bound := ascending _ (List.mem_map_of_mem mem)
    exact (lower ▸ lt).ne'
  have short : rest.length ≤ l.store.nodes.size + 1 :=
    (Nat.le_succ _).trans followed.short
  have keys := onward.keysFrom inner short
  have head : Seat.bound ⟨j, node⟩ = .lower := lower
  rw [SkipList.keys, ok, ok_bind, keys, List.filterMap_cons, head]
  rfl

end SkipList

/-! ## 5. Searching -/

/-- In an ascending line that is cut between two seats every other seat lies on one side. -/
theorem le_or_lt_of_cut {before after : List Seat} {seat next other : Seat}
    (ascending : ((before ++ seat :: next :: after).map Seat.bound).Pairwise (· < ·))
    (mem : other ∈ before ++ seat :: next :: after) :
    other.bound ≤ seat.bound ∨ other = next ∨ next.bound < other.bound := by
  obtain ⟨-, behind, across⟩ := List.pairwise_append.mp (List.pairwise_map.mp ascending)
  rcases List.mem_append.mp mem with left | mem
  · exact .inl (across other left seat List.mem_cons_self).le
  · rcases List.mem_cons.mp mem with rfl | mem
    · exact .inl le_rfl
    · rcases List.mem_cons.mp mem with rfl | right
      · exact .inr (.inl rfl)
      · exact .inr (.inr ((List.pairwise_cons.mp (List.pairwise_cons.mp behind).2).1 other right))

/-- **One level**: sliding along a line rests last on a seat that passes and whose next one does
not. -/
theorem Store.Line.slide {s : Store} {i : Slot} {line : List Seat} {p : Bound → Bool} {limit : Nat}
    {node : Node} (run : s.Line i line) (hp : p .upper = false) (here : s.get i = .ok node)
    (pass : p node.bound = true) (enough : line.length ≤ limit + 1) (earlier : List Slot) :
    ∃ before seat next after stretch, line = before ++ seat :: next :: after ∧
      p seat.bound = true ∧ p next.bound = false ∧ s.slide p limit earlier i = .ok stretch ∧
      stretch.last = seat.slot := by
  induction run generalizing node limit earlier with
  | last here' ends =>
    rw [here] at here'
    cases here'
    rw [ends, hp] at pass
    cases pass
  | @cons i node' rest here' _ onward ih =>
    obtain rfl : node = node' := Except.ok.inj (here.symm.trans here')
    obtain ⟨next, rest', right, rfl⟩ := onward.eq_cons
    cases go : p next.bound with
    | false =>
      refine ⟨[], ⟨i, node⟩, ⟨node.right, next⟩, rest', ⟨i, earlier⟩, rfl, pass, go, ?_, rfl⟩
      have stop : ¬ p next.bound = true := by simp [go]
      unfold Store.slide
      rw [here, ok_bind, right, ok_bind, if_neg stop]
      rfl
    | true =>
      obtain ⟨limit, rfl⟩ : ∃ limit', limit = limit' + 1 :=
        Nat.exists_eq_add_one.mpr (by simp only [List.length_cons] at enough; omega)
      obtain ⟨before, seat, beyond, after, stretch, cut, pass', stop, ok, last⟩ :=
        ih right go (Nat.le_of_succ_le_succ enough) (i :: earlier)
      refine ⟨⟨i, node⟩ :: before, seat, beyond, after, stretch, ?_, pass', stop, ?_, last⟩
      · rw [cut]
        rfl
      · rw [Store.slide, here, ok_bind, right, ok_bind, if_pos go]
        exact ok

namespace SkipList

/-- The down link of the seat leads to the line of this level. -/
def Lands (l : SkipList) (level : Nat) (seat : Seat) : Prop :=
  ∃ line, l.Line level line ∧ ∃ below ∈ line, below.slot = seat.node.down

/-- The down links that a search for the key follows lead to the lines of their levels: those of the
last seat before the key on each level. -/
def Grounded (l : SkipList) (key : Key) : Prop :=
  ∀ level line, l.Line (level + 1) line → ∀ seat ∈ line, seat.bound < .key key →
    (∀ other ∈ line, other.bound < .key key → other.bound ≤ seat.bound) → l.Lands level seat

variable {l : SkipList} {level : Nat} {line : List Seat} {seat : Seat} {k : Key}

/-- What a search does on a level whose line it is on. -/
theorem Connected.slide (hl : l.Connected) (hline : l.Line level line) (mem : seat ∈ line)
    (pass : seat.bound < .key k) :
    ∃ before last next after stretch, l.Followed level (before ++ last :: next :: after) ∧
      last.bound < .key k ∧ ¬ next.bound < .key k ∧ l.store.get last.slot = .ok last.node ∧
      l.store.slide (Reach.below.passes k) l.store.nodes.size [] seat.slot = .ok stretch ∧
      stretch.last = last.slot := by
  obtain ⟨i, start, run⟩ := id hline
  obtain ⟨line', followed⟩ := hl.followed level start.lt_height
  obtain rfl := hline.unique followed.seats
  obtain ⟨left, right, rfl⟩ := List.append_of_mem mem
  have short : (seat :: right).length ≤ l.store.nodes.size + 1 := by
    have := followed.short
    rw [List.length_append] at this
    omega
  obtain ⟨before, last, next, after, stretch, cut, pass', stop, ok, ends⟩ :=
    (run.suffix rfl).slide (Reach.below.passes_downward k).upper (run.get mem)
      (decide_eq_true pass) short []
  rw [cut, ← List.append_assoc] at followed run
  exact ⟨left ++ before, last, next, after, stretch, followed, of_decide_eq_true pass',
    of_decide_eq_false stop, run.get (by simp), ok, ends⟩

/-- **All levels**: a search that starts on a line ends on the bottom line, between the last seat
before the key and the next one. -/
theorem Connected.descend (hl : l.Connected) (grounded : l.Grounded k) (hline : l.Line level line)
    (mem : seat ∈ line) (pass : seat.bound < .key k) (above : List Stretch) :
    ∃ trail before last next after, l.Followed 0 (before ++ last :: next :: after) ∧
      last.bound < .key k ∧ ¬ next.bound < .key k ∧ trail.bottom.last = last.slot ∧
      l.store.descend (Reach.below.passes k) level above seat.slot = .ok trail := by
  induction level generalizing line seat above with
  | zero =>
    obtain ⟨before, last, next, after, stretch, followed, lt, stop, here, ok, ends⟩ :=
      hl.slide hline mem pass
    have bottom : last.node.down = .nil := followed.down last (by simp)
    refine ⟨⟨stretch, above⟩, before, last, next, after, followed, lt, stop, ends, ?_⟩
    rw [Store.descend, ok, ok_bind, ends, here, ok_bind]
    exact if_pos bottom
  | succ level ih =>
    obtain ⟨before, last, next, after, stretch, followed, lt, stop, here, ok, ends⟩ :=
      hl.slide hline mem pass
    obtain ⟨leads, node, down, bound⟩ := followed.down last (by simp)
    have greatest : ∀ other ∈ before ++ last :: next :: after, other.bound < .key k →
        other.bound ≤ last.bound := by
      intro other hother lt'
      rcases le_or_lt_of_cut followed.ascending hother with le | rfl | behind
      · exact le
      · exact absurd lt' stop
      · exact absurd (behind.trans lt') stop
    obtain ⟨lower, hlower, below, hbelow, lands⟩ :=
      grounded level _ followed.seats last (by simp) lt greatest
    -- the bound is on the line below, so the search goes on from it as from any seat there
    obtain ⟨i, -, run⟩ := id hlower
    have same : node = below.node := by
      have found := run.get hbelow
      rw [lands, down] at found
      exact Except.ok.inj found
    have pass' : below.bound < .key k := by
      have : below.bound = last.bound := (congrArg Node.bound same).symm.trans bound
      rwa [this]
    obtain ⟨trail, rest⟩ := ih hlower hbelow pass' (stretch :: above)
    refine ⟨trail, ?_⟩
    rwa [Store.descend, ok, ok_bind, ends, here, ok_bind, if_neg leads, ← lands]

/-- **A search whose links lead to the lines finds what is there.** -/
theorem Connected.contains (hl : l.Connected) (positive : 0 < l.height) (grounded : l.Grounded k) :
    ∃ line, l.Line 0 line ∧ l.contains k =
      .ok (decide (k ∈ line.filterMap fun seat => seat.bound.key?)) := by
  obtain ⟨top, hh⟩ := Nat.exists_eq_add_one.mpr positive
  obtain ⟨node, rest, followed, -, lower, -⟩ := hl.line_of_leftEnd (.top hh.symm)
  have pass : node.bound < .key k := lower ▸ Bound.lower_lt_key k
  obtain ⟨trail, before, last, next, after, bottom, lt, stop, ends, ok⟩ :=
    hl.descend grounded followed.seats List.mem_cons_self pass []
  obtain ⟨i, -, run⟩ := id bottom.seats
  refine ⟨_, bottom.seats, ?_⟩
  have search : l.search .below k = .ok trail := by
    rw [SkipList.search, hh]
    exact ok
  rw [SkipList.contains, search, ok_bind, SkipList.precedes, ends, run.get (by simp), ok_bind,
    run.get_right rfl, ok_bind]
  refine congrArg Except.ok (decide_eq_decide.mpr ?_)
  simp only [List.mem_filterMap, Bound.key?_eq_some_iff]
  constructor
  · intro found
    exact ⟨next, by simp, found⟩
  · rintro ⟨other, hother, found⟩
    rcases le_or_lt_of_cut bottom.ascending hother with le | rfl | behind
    · exact absurd (found ▸ lt_of_le_of_lt le lt) (lt_irrefl _)
    · exact found
    · exact absurd (found ▸ behind) stop

/-- The left end of a level links to that of the level below. -/
theorem Connected.lands_of_leftEnd (hl : l.Connected) (start : l.LeftEnd (level + 1) seat.slot)
    (here : l.store.get seat.slot = .ok seat.node) : l.Lands level seat := by
  obtain ⟨node, rest, followed, -⟩ := hl.line_of_leftEnd (.down start here)
  exact ⟨_, followed.seats, _, List.mem_cons_self, rfl⟩

end SkipList

/-! ## 6. The statement -/

/-- **What a passed audit says**, of any store at all. Each level has an ascending line; each node
of it links down to its own bound, which is on the line below, and the left end links to the left
end there. The keys of the list are those of the bottom line, and a search for a key finds whether
it is one of them, if the links that it follows lead to the lines. -/
theorem passed_audit {l : SkipList} {h : Hasher} (root : l.top.lower ≠ .nil)
    (pass : (l.audit h).Passes ()) :
    l.Connected ∧
      (∀ level seat, l.LeftEnd (level + 1) seat.slot → l.store.get seat.slot = .ok seat.node →
        l.Lands level seat) ∧
      ∃ line keys, l.Line 0 line ∧ keys = line.filterMap (fun seat => seat.bound.key?) ∧
        l.keys = .ok keys ∧ keys.Pairwise (· < ·) ∧
        ∀ k, l.Grounded k → l.contains k = .ok (decide (k ∈ keys)) := by
  obtain ⟨hl, positive⟩ := SkipList.connected_of_audit root pass
  obtain ⟨line, followed⟩ := hl.followed 0 positive
  refine ⟨hl, fun level seat => hl.lands_of_leftEnd, line, _, followed.seats, rfl,
    hl.keys followed.seats, ?_, fun k grounded => ?_⟩
  · have sorted := Layout.filterMap_key_sorted followed.ascending
    rwa [List.filterMap_map] at sorted
  · obtain ⟨line', hline', contains⟩ := hl.contains positive grounded
    obtain rfl := followed.seats.unique hline'
    exact contains

/-- Of a reachable list all down links lead to the lines. -/
theorem Reachable.grounded {h : Hasher} {l : SkipList} (reach : Reachable h l) (k : Key) :
    l.Grounded k := by
  obtain ⟨y, hl, -⟩ := reach.exists_layout
  intro level line hline seat mem _ _
  obtain ⟨below, rfl⟩ := hl.line_iff.mp hline
  obtain ⟨b, hb, rfl⟩ := List.mem_map.mp mem
  exact ⟨_, hl.line_iff.mpr ⟨by omega, rfl⟩, y.seat level b,
    List.mem_map_of_mem (hl.shaped.nested hb), rfl⟩

/-! ## A list that passes with a link that leads elsewhere -/

/-- The root and all links that lead anywhere lead to slots that exist. -/
structure SkipList.InRange (l : SkipList) : Prop where
  root : l.top.lower.index.toNat < l.store.nodes.size
  links : ∀ node ∈ l.store.nodes.toList, ∀ i ∈ [node.right, node.down],
    i = .nil ∨ i.index.toNat < l.store.nodes.size

/-- The list of the key 8 on two levels whose upper node links down to a slot set free, in which the
same key has been before. -/
def stray : SkipList where
  store :=
    { nodes := #[
        ⟨.upper, .nil, .nil, true, ⟨[]⟩⟩, ⟨.lower, ⟨2⟩, .nil, true, ⟨[9]⟩⟩,
        ⟨.key 8, ⟨0⟩, .nil, true, ⟨[9]⟩⟩, ⟨.upper, .nil, ⟨0⟩, false, ⟨[]⟩⟩,
        ⟨.lower, ⟨5⟩, ⟨1⟩, false, ⟨[10]⟩⟩, ⟨.key 8, ⟨3⟩, ⟨6⟩, false, ⟨[]⟩⟩,
        ⟨.key 8, .nil, .nil, false, ⟨[]⟩⟩]
      free := [⟨6⟩] }
  top := ⟨⟨4⟩, ⟨3⟩⟩
  height := 2
  size := 1
  version := 0

theorem audit_stray : (stray.audit .byteSum).Passes () := rfl

/-- The upper and the lower line of that list. -/
theorem line_stray :
    stray.Line 1 [⟨⟨4⟩, ⟨.lower, ⟨5⟩, ⟨1⟩, false, ⟨[10]⟩⟩⟩, ⟨⟨5⟩, ⟨.key 8, ⟨3⟩, ⟨6⟩, false, ⟨[]⟩⟩⟩,
        ⟨⟨3⟩, ⟨.upper, .nil, ⟨0⟩, false, ⟨[]⟩⟩⟩] ∧
      stray.Line 0 [⟨⟨1⟩, ⟨.lower, ⟨2⟩, .nil, true, ⟨[9]⟩⟩⟩,
        ⟨⟨2⟩, ⟨.key 8, ⟨0⟩, .nil, true, ⟨[9]⟩⟩⟩, ⟨⟨0⟩, ⟨.upper, .nil, .nil, true, ⟨[]⟩⟩⟩] := by
  have upper : stray.LeftEnd 1 ⟨4⟩ := .top rfl
  have here : stray.store.get ⟨4⟩ = .ok ⟨.lower, ⟨5⟩, ⟨1⟩, false, ⟨[10]⟩⟩ := rfl
  have lower : stray.LeftEnd 0 ⟨1⟩ := .down upper here
  exact ⟨⟨_, upper, .cons rfl nofun (.cons rfl nofun (.last rfl rfl))⟩,
    ⟨_, lower, .cons rfl nofun (.cons rfl nofun (.last rfl rfl))⟩⟩

/-- **A passed audit does not say that down links lead to the lines.** All links of the list lead
somewhere and its audit has nothing to object, but a node of its upper line links down to a free
slot, and a search for a key it does not have meets a fault there. -/
theorem passed_audit_stray_links :
    stray.InRange ∧ stray.top.lower ≠ .nil ∧ (stray.audit .byteSum).Passes () ∧
      (∃ line seat, stray.Line 1 line ∧ seat ∈ line ∧ seat.node.down ∈ stray.store.free ∧
        ¬ stray.Lands 0 seat) ∧
      stray.keys = .ok [8] ∧ stray.contains 9 = .error (.dangling .nil) := by
  obtain ⟨upper, lower⟩ := line_stray
  refine ⟨⟨by decide, by decide⟩, by decide, audit_stray, ⟨_, _, upper,
    List.mem_cons_of_mem _ List.mem_cons_self, by decide, ?_⟩, by decide +kernel,
    by decide +kernel⟩
  rintro ⟨line, hline, below, mem, same⟩
  obtain rfl := lower.unique hline
  simp only [List.mem_cons, List.not_mem_nil, or_false] at mem
  rcases mem with rfl | rfl | rfl <;> simp at same

theorem passed_audit_stray :
    stray.top.lower ≠ .nil ∧ (stray.audit .byteSum).Passes () ∧ stray.Grounded 8 ∧
      stray.contains 8 = .ok true := by
  have root : stray.top.lower ≠ .nil := by decide
  obtain ⟨-, lands, -, keys, -, -, ok, -, contains⟩ := passed_audit root audit_stray
  have key : stray.keys = .ok [8] := by decide +kernel
  obtain rfl : [8] = keys := Except.ok.inj (key.symm.trans ok)
  -- the last seat before 8 on the upper line is its left end
  have grounded : stray.Grounded 8 := by
    intro level line hline seat mem lt _
    obtain ⟨_, start, _⟩ := id hline
    have below : level + 1 < 2 := start.lt_height
    obtain rfl : level = 0 := by omega
    obtain rfl := line_stray.1.unique hline
    simp only [List.mem_cons, List.not_mem_nil, or_false] at mem
    rcases mem with rfl | rfl | rfl
    · exact lands 0 _ (.top rfl) rfl
    · exact absurd lt (by decide)
    · exact absurd lt (by decide)
  exact ⟨root, audit_stray, grounded, contains 8 grounded⟩

end AuthenticatedSet
