import AuthenticatedSet.Proofs.Term
import AuthenticatedSet.SkipList.Path
import Mathlib.Data.List.Chain
import Mathlib.Data.List.Range

/-!
# Every proof that a list gives is accepted

The proof for a key follows the trail of a search back to the root. Each step of it goes to a place
that reads the digest of the one before, and adds what that place reads besides. So, if the hasher
does not mind the order of a pair, folding the path gives the digest of one place after the other,
the last one being the root.

* `Shaped.path_chain`       -- each place of a path reads the digest of the one before
* `Layout.proof`            -- the proof for a key, as it follows from a layout
* `Carries.prove`           -- the same proof read from a store
* `foldl_siblings`          -- one step of folding it
* `Shaped.impliedRoot_proof` -- where folding it leads
* `Reachable.prove_leads_to_root` -- the same said of a list
* `Reachable.prove_accepted` -- what a confirmation says about it
-/

namespace AuthenticatedSet

namespace Layout

variable {y : Layout} {s : Store} {l : SkipList} {h : Hasher} {p : Bound → Bool}
  {height level m : Nat} {b c : Bound} {k : Key} {site reader : Site} {sites : List Site}

/-! ## 1. Paths as chains -/

/-- Along a level, from what is reached above to the right, each bound reads the digest of the next
one. -/
theorem Shaped.slice_chain (hy : y.Shaped height) (hp : Downward p) (hb : b ∈ y.row level)
    (pass : p b = true) (ge : y.reached p (level + 1) ≤ b) :
    (slice (y.row level) b p).IsChain fun c d => y.Reads (level, c) (level, d) := by
  refine hy.right_to_left (P := fun b => p b = true → y.reached p (level + 1) ≤ b →
    (slice (y.row level) b p).IsChain fun c d => y.Reads (level, c) (level, d))
    (fun pass => ?_) (fun b hb ne rest pass ge => ?_) b hb pass ge
  · exact absurd rfl (ne_upper_of_pass hp pass)
  have lt : b < y.next level b := Shaped.lt_next ne
  rw [slice_eq_cons (hy.sorted level) hb ne pass]
  cases go : p (y.next level b) with
  | false =>
    rw [show slice (y.row level) (nextIn (y.row level) b) p = [] from slice_eq_nil hp go]
    exact List.IsChain.singleton b
  | true =>
    refine List.isChain_cons.mpr ⟨fun d hd => ?_, rest go (ge.trans lt.le)⟩
    have hn := hy.next_mem hb
    have head := slice_eq_cons (hy.sorted level) hn (ne_upper_of_pass hp go) go
    rw [show nextIn (y.row level) b = y.next level b from rfl, head] at hd
    obtain rfl := Option.mem_some_iff.mp hd
    refine .inr ⟨rfl, ne, rfl, ?_⟩
    -- what lies behind the bound reached above is not on the level above
    rw [← Bool.not_eq_true, hy.isCovered_iff hn]
    intro h
    rcases h with above | last
    · exact (hy.le_reached above go).not_gt (lt_of_le_of_lt ge lt)
    · exact ne_upper_of_pass hp go last

theorem Shaped.head?_stretch (hy : y.Shaped height) (hp : Downward p) (h : level < height) :
    (y.stretch p level).head? = some (y.reached p level) := by
  obtain ⟨rest, first⟩ := hy.stretch_eq_cons hp h
  rw [first]
  rfl

theorem Shaped.getLast?_stretch (hy : y.Shaped height) (hp : Downward p) (h : level < height) :
    (y.stretch p level).getLast? = some (y.reached p (level + 1)) := by
  have pass := Shaped.reached_pass (y := y) hp (level + 1)
  rw [stretch, List.getLast?_reverse, slice_eq_cons (hy.sorted level) (hy.reached_succ_mem h)
    (ne_upper_of_pass hp pass) pass]
  rfl

/-- **Each place of a path reads the digest of the one before.** -/
theorem Shaped.path_chain (hy : y.Shaped height) (hp : Downward p) :
    (y.path p height).IsChain fun came i => y.Reads i came := by
  rw [path, List.flatMap_def, List.isChain_flatten]
  · constructor
    · intro sites hs
      obtain ⟨level, hm, rfl⟩ := List.mem_map.mp hs
      have h := List.mem_range.mp hm
      rw [List.isChain_map, stretch, List.isChain_reverse]
      exact hy.slice_chain hp (hy.reached_succ_mem h) (Shaped.reached_pass hp _) le_rfl
    · rw [List.isChain_map, List.isChain_range]
      intro m hm came hcame i hi
      rw [List.getLast?_map, hy.getLast?_stretch hp (by omega)] at hcame
      rw [List.head?_map, hy.head?_stretch hp (by omega)] at hi
      cases hcame
      cases hi
      exact .inl rfl
  · intro empty
    obtain ⟨level, hm, same⟩ := List.mem_map.mp empty
    obtain ⟨rest, first⟩ := hy.stretch_eq_cons hp (List.mem_range.mp hm)
    rw [first] at same
    cases same

theorem Shaped.getLast?_path (hy : y.Shaped height) (hp : Downward p) :
    (y.path p height).getLast? = some (height - 1, .lower) := by
  obtain ⟨top, rfl⟩ := Nat.exists_eq_add_one.mpr hy.positive
  rw [path, List.range_succ, List.flatMap_append, List.flatMap_singleton,
    List.getLast?_append_of_ne_nil, List.getLast?_map, hy.getLast?_stretch hp (Nat.lt_succ_self _),
    hy.reached_beyond le_rfl]
  · rfl
  · obtain ⟨rest, first⟩ := hy.stretch_eq_cons hp (Nat.lt_succ_self _)
    rw [first]
    exact List.cons_ne_nil _ _

theorem Shaped.path_eq_cons (hy : y.Shaped height) (hp : Downward p) :
    ∃ rest, y.path p height = (0, y.reached p 0) :: rest := by
  obtain ⟨top, rfl⟩ := Nat.exists_eq_add_one.mpr hy.positive
  obtain ⟨rest, first⟩ := hy.stretch_eq_cons hp hy.positive
  rw [path, List.range_succ_eq_map, List.flatMap_cons, first]
  exact ⟨_, rfl⟩

/-! ## 2. What a proof reads -/

/-- What a place reads besides the digest of the place before it. -/
def siblings (y : Layout) (h : Hasher) (reader site : Site) : List Digest :=
  if reader = (site.1 + 1, site.2) then
    (y.node reader.1 (y.next reader.1 reader.2)).share.sibling?.toList
  else match y.below reader.1 reader.2 with
    | none => [h.ofBound reader.2]
    | some digest => [digest]

/-- What the places of a path read besides the digests of those before them. -/
def siblingsAlong (y : Layout) (h : Hasher) : Site → List Site → List Digest
  | _, [] => []
  | came, site :: rest => y.siblings h site came ++ y.siblingsAlong h site rest

/-- The proof for a key. -/
def proof (y : Layout) (h : Hasher) (version : UInt64) (height : Nat) (k : Key) :
    MembershipProof where
  version := version
  present := y.reached (Reach.upTo.passes k) 0 = .key k
  key := k
  digests :=
    h.ofBound (y.reached (Reach.upTo.passes k) 0) ::
      (y.node 0 (y.next 0 (y.reached (Reach.upTo.passes k) 0))).share.digest h ::
        y.siblingsAlong h (0, y.reached (Reach.upTo.passes k) 0)
          (y.path (Reach.upTo.passes k) height).tail

/-- One step of a path in a store. -/
theorem Describes.siblings (hs : y.Describes s) (hy : y.Shaped height)
    (reads : y.Reads reader site) (hsite : site.2 ∈ y.row site.1)
    (hreader : reader.2 ∈ y.row reader.1) (ne : reader.2 ≠ .upper) :
    s.siblings h (y.slot reader.1 reader.2) (y.slot site.1 site.2) =
      .ok (y.siblings h reader site) := by
  obtain ⟨m, c⟩ := site
  obtain ⟨level, b⟩ := reader
  rw [Store.siblings, hs.get hreader, ok_bind]
  rcases reads with up | ⟨same, -⟩
  · -- up from the node below
    have down : (y.node level b).down = y.slot m c := by
      obtain ⟨rfl, rfl⟩ := Prod.mk.inj up
      rfl
    rw [if_pos down, hs.get_right ne (hy.next_mem hreader), ok_bind, Layout.siblings, if_pos up]
    rfl
  · -- left along the level
    obtain rfl : level = m := same
    have left : ((level, b) : Site) ≠ (level + 1, c) := fun same =>
      absurd (Prod.mk.inj same).1 (by omega)
    rw [Layout.siblings, if_neg left]
    cases level with
    | zero =>
      have down : (y.node 0 b).down = .nil := rfl
      rw [if_neg (down ▸ (hs.slot_ne_nil hsite).symm), if_pos down]
      rfl
    | succ n =>
      have hb := hy.nested hreader
      have down : (y.node (n + 1) b).down = y.slot n b := rfl
      have other : y.slot n b ≠ y.slot (n + 1) c := fun same => by
        have := (hs.slot_inj hb hsite same).1
        omega
      rw [down, if_neg other, if_neg (hs.slot_ne_nil hb), hs.get hb]
      rfl

/-- A whole path in a store. -/
theorem Describes.siblingsAlong (hs : y.Describes s) (hy : y.Shaped height)
    (chain : (site :: sites).IsChain fun came i => y.Reads i came)
    (mem : ∀ i ∈ site :: sites, i.2 ∈ y.row i.1 ∧ i.2 ≠ .upper) :
    s.siblingsAlong h (y.slot site.1 site.2) (y.slots sites) =
      .ok (y.siblingsAlong h site sites) := by
  induction sites generalizing site with
  | nil => rfl
  | cons i rest ih =>
    have ⟨reads, chain⟩ := List.isChain_cons_cons.mp chain
    have hi := mem i (List.mem_cons_of_mem _ List.mem_cons_self)
    have here := hs.siblings (h := h) hy reads (mem site List.mem_cons_self).1 hi.1 hi.2
    have further := ih chain fun j hj => mem j (List.mem_cons_of_mem _ hj)
    show (s.siblings h (y.slot i.1 i.2) (y.slot site.1 site.2) >>= _) = _
    rw [here, ok_bind]
    show (s.siblingsAlong h (y.slot i.1 i.2) (y.slots rest) >>= _) = _
    rw [further]
    rfl

/-- Places of a path are places of the layout, and no right ends. -/
theorem path_mem (hp : Downward p) (hs : site ∈ y.path p height) :
    site.2 ∈ y.row site.1 ∧ site.2 ≠ .upper := by
  obtain ⟨level, b⟩ := site
  obtain ⟨-, hb, -, pass⟩ := mem_path.mp hs
  exact ⟨hb, ne_upper_of_pass hp pass⟩

/-- **The proof that a list gives for a key** is that of its layout. -/
theorem Carries.prove (hl : y.Carries l) (h : Hasher) (k : Key) :
    l.prove h k = .ok (y.proof h l.version l.height k) := by
  have hp := Reach.upTo.passes_downward k
  have hy := hl.shaped
  obtain ⟨trail, found, ht⟩ := hl.search .upTo k
  obtain ⟨rest, path⟩ := hy.path_eq_cons hp
  have hb := hy.reached_mem (p := Reach.upTo.passes k) hy.positive
  have ne : y.reached (Reach.upTo.passes k) 0 ≠ .upper := Shaped.reached_ne_upper hp 0
  have along := hl.describes.siblingsAlong (h := h) hy (path ▸ hy.path_chain hp)
    fun i hi => path_mem hp (path ▸ hi)
  have backward : trail.backward.tail = y.slots rest := by
    rw [ht.backward, path]
    rfl
  rw [SkipList.prove, found, ok_bind, ht.last hy hp, hl.describes.get hb, ok_bind,
    hl.describes.get_right ne (hy.next_mem hb), ok_bind, backward, along, proof, path]
  rfl

/-! ## 3. Folding a path -/

/-- **One step of a path**: what the place reads besides the digest it comes from, combined with
that digest, gives its own. -/
theorem foldl_siblings (comm : h.Commutative) (current : y.Current h)
    (reads : y.Reads reader site) (hreader : reader.2 ∈ y.row reader.1) (ne : reader.2 ≠ .upper) :
    (y.siblings h reader site).foldl h.combine (y.digest site.1 site.2) =
      y.digest reader.1 reader.2 := by
  obtain ⟨m, c⟩ := site
  obtain ⟨level, b⟩ := reader
  have rule := current level b hreader ne
  rcases reads with up | ⟨same, -, next, exposed⟩
  · rw [siblings, if_pos up]
    obtain ⟨rfl, rfl⟩ := Prod.mk.inj up
    rw [rule, commit]
    cases (y.node (m + 1) (y.next (m + 1) b)).share <;> rfl
  · obtain rfl : level = m := same
    have next : y.next level b = c := next
    have share : (y.node level c).share = .exposed (y.digest level c) :=
      if_neg (by simpa using exposed)
    have left : ((level, b) : Site) ≠ (level + 1, c) := fun same =>
      absurd (Prod.mk.inj same).1 (by omega)
    rw [commit, next, share] at rule
    rw [siblings, if_neg left]
    -- the place reads its own digest first, the path comes with the other one
    cases level with
    | zero => exact (comm _ _).trans rule.symm
    | succ n => exact (comm _ _).trans rule.symm

/-- **A whole path**: its siblings, combined with the digest it starts from, give the digest of its
last place. -/
theorem foldl_siblingsAlong (comm : h.Commutative) (current : y.Current h)
    (chain : (site :: sites).IsChain fun came i => y.Reads i came)
    (mem : ∀ i ∈ site :: sites, i.2 ∈ y.row i.1 ∧ i.2 ≠ .upper) :
    ∀ last ∈ (site :: sites).getLast?,
      (y.siblingsAlong h site sites).foldl h.combine (y.digest site.1 site.2) =
        y.digest last.1 last.2 := by
  induction sites generalizing site with
  | nil =>
    intro last hlast
    cases hlast
    rfl
  | cons i rest ih =>
    intro last hlast
    have ⟨reads, chain⟩ := List.isChain_cons_cons.mp chain
    have hi := mem i (List.mem_cons_of_mem _ List.mem_cons_self)
    rw [List.getLast?_cons_cons] at hlast
    rw [siblingsAlong, List.foldl_append, foldl_siblings comm current reads hi.1 hi.2]
    exact ih chain (fun j hj => mem j (List.mem_cons_of_mem _ hj)) last hlast

/-- **The proof for a key leads to the root digest**, whether the key is there or not. -/
theorem Shaped.impliedRoot_proof (hy : y.Shaped height) (comm : h.Commutative)
    (current : y.Current h) (version : UInt64) (k : Key) :
    (y.proof h version height k).impliedRoot h = some (y.digest (height - 1) .lower) := by
  have hp := Reach.upTo.passes_downward k
  obtain ⟨rest, path⟩ := hy.path_eq_cons hp
  have hb := hy.reached_mem (p := Reach.upTo.passes k) hy.positive
  have rule := current 0 _ hb (Shaped.reached_ne_upper hp 0)
  have first : h.combine (h.ofBound (y.reached (Reach.upTo.passes k) 0))
      ((y.node 0 (y.next 0 (y.reached (Reach.upTo.passes k) 0))).share.digest h) =
        y.digest 0 (y.reached (Reach.upTo.passes k) 0) := by
    rw [rule, commit]
    cases (y.node 0 (y.next 0 (y.reached (Reach.upTo.passes k) 0))).share <;> rfl
  have last := foldl_siblingsAlong comm current (path ▸ hy.path_chain hp)
    (fun i hi => path_mem hp (path ▸ hi)) (height - 1, .lower) (path ▸ hy.getLast?_path hp)
  unfold MembershipProof.impliedRoot proof
  dsimp only
  rw [List.foldl_cons, first, path]
  exact congrArg some last

theorem upTo_passes_iff : Reach.upTo.passes k b = true ↔ b ≤ .key k := decide_eq_true_iff

/-- A search up to a key reaches the key itself if it is there. -/
theorem Shaped.reached_upTo_eq_iff (hy : y.Shaped height) :
    y.reached (Reach.upTo.passes k) 0 = .key k ↔ .key k ∈ y.row 0 := by
  have hp := Reach.upTo.passes_downward k
  constructor
  · intro same
    exact same ▸ hy.reached_mem hy.positive
  · intro hk
    exact le_antisymm (upTo_passes_iff.mp (Shaped.reached_pass hp 0))
      (hy.le_reached hk (upTo_passes_iff.mpr le_rfl))

end Layout

/-! ## 4. The verdict on it -/

/-- The bound that a key follows among keys in any order: the greatest one below it, or the left end
if there is none. -/
def IsPredecessor (keys : List Key) (k : Key) : Bound → Prop
  | .lower => ∀ k' ∈ keys, ¬ k' < k
  | .key b => b ∈ keys ∧ b < k ∧ ∀ k' ∈ keys, k' < k → k' ≤ b
  | .upper => False

/-- The greatest bound up to a key, among keys in any order: the left end if there is none. -/
def IsFloor (keys : List Key) (k : Key) : Bound → Prop
  | .lower => ∀ k' ∈ keys, ¬ k' ≤ k
  | .key b => b ∈ keys ∧ b ≤ k ∧ ∀ k' ∈ keys, k' ≤ k → k' ≤ b
  | .upper => False

/-- The greatest bound up to a key that is not there is its predecessor. -/
theorem IsFloor.isPredecessor {keys : List Key} {k : Key} {b : Bound} (floor : IsFloor keys k b)
    (absent : k ∉ keys) : IsPredecessor keys k b := by
  cases b with
  | lower => exact fun k' hk' lt => floor k' hk' (Int64.le_of_lt lt)
  | key b =>
    obtain ⟨mem, le, greatest⟩ := floor
    refine ⟨mem, Int64.lt_of_le_of_ne le ?_, fun k' hk' lt => greatest k' hk' (Int64.le_of_lt lt)⟩
    rintro rfl
    exact absent mem
  | upper => exact floor.elim

open Layout in
/-- What a search up to a key reaches is the greatest bound up to it. -/
theorem Layout.Shaped.isFloor_reached {y : Layout} {height : Nat} (hy : y.Shaped height) (k : Key) :
    IsFloor y.keys k (y.reached (Reach.upTo.passes k) 0) := by
  have hp := Reach.upTo.passes_downward k
  have mem := hy.reached_mem (p := Reach.upTo.passes k) hy.positive
  have pass := upTo_passes_iff.mp (Shaped.reached_pass (y := y) hp 0)
  have greatest : ∀ k' ∈ y.keys, k' ≤ k → .key k' ≤ y.reached (Reach.upTo.passes k) 0 :=
    fun k' hk' le => hy.le_reached (mem_keys.mp hk') (upTo_passes_iff.mpr (Bound.key_le_key.mpr le))
  cases found : y.reached (Reach.upTo.passes k) 0 with
  | lower =>
    intro k' hk' le
    exact (Bound.lower_lt_key k').not_ge (found ▸ greatest k' hk' le)
  | key b =>
    rw [found] at mem pass greatest
    exact ⟨mem_keys.mpr mem, Bound.key_le_key.mp pass,
      fun k' hk' le => Bound.key_le_key.mp (greatest k' hk' le)⟩
  | upper => exact Shaped.reached_ne_upper hp 0 found

/-- What a search up to a key that is not there reaches is its predecessor. -/
theorem Layout.Shaped.isPredecessor_reached {y : Layout} {height : Nat} {k : Key}
    (hy : y.Shaped height) (absent : .key k ∉ y.row 0) :
    IsPredecessor y.keys k (y.reached (Reach.upTo.passes k) 0) :=
  (hy.isFloor_reached k).isPredecessor (mt mem_keys.mp absent)

theorem Confirmation.pathVerdict_eq_stale_iff {c : Confirmation} {p : MembershipProof} {h : Hasher} :
    c.pathVerdict p h = .stale ↔ p.version < c.version := by
  unfold Confirmation.pathVerdict
  split
  · simp [*]
  · split <;> simp [*]

/-- The verdict on a path that leads to some digest. -/
theorem Confirmation.pathVerdict_of_root {c : Confirmation} {p : MembershipProof} {h : Hasher}
    {d : Digest} (root : p.impliedRoot h = some d) : c.pathVerdict p h =
      if p.version < c.version then .stale else if d = c.digest then .correct else .incorrect := by
  rw [Confirmation.pathVerdict, root]
  simp only [Option.some.injEq]

/-- What a list proves and what it publishes at the same moment: both have its version, and the path
leads to the root digest. -/
theorem Reachable.prove_leads_to_root {h : Hasher} (comm : h.Commutative) {l : SkipList}
    (reach : Reachable h l) : ∃ c, l.confirmation = .ok c ∧ c.version = l.version ∧
      ∀ k, ∃ p, l.prove h k = .ok p ∧ p.version = l.version ∧ p.impliedRoot h = some c.digest := by
  obtain ⟨y, hl, current⟩ := reach.exists_layout
  exact ⟨_, hl.confirmation, rfl, fun k => ⟨_, hl.prove h k, rfl,
    hl.shaped.impliedRoot_proof comm current l.version k⟩⟩

/-- **Completeness of proofs**: if the hasher does not mind the order of a pair, the proof that a
reachable list gives for a key leads to its root digest and says whether the key is there. It is
accepted for a key that is there; for one that is not it is accepted unless the leaf of the key is
the digest of the bound before it. -/
theorem Reachable.prove_accepted {h : Hasher} (comm : h.Commutative) {l : SkipList}
    (reach : Reachable h l) (k : Key) :
    ∃ p c keys, l.prove h k = .ok p ∧ l.confirmation = .ok c ∧ l.keys = .ok keys ∧
      p.impliedRoot h = some c.digest ∧ c.pathVerdict p h = .correct ∧
      l.contains k = .ok p.present ∧ (p.present = true ↔ k ∈ keys) ∧
      (k ∈ keys → c.verdict p h = .correct) ∧
      (k ∉ keys → ∃ b, IsPredecessor keys k b ∧
        c.verdict p h = if h.leaf k ≠ h.ofBound b then .correct else .incorrect) := by
  obtain ⟨y, hl, current⟩ := reach.exists_layout
  have root := hl.shaped.impliedRoot_proof comm current l.version k
  have path : Confirmation.pathVerdict ⟨l.version, y.digest (l.height - 1) .lower⟩
      (y.proof h l.version l.height k) h = .correct := by
    rw [Confirmation.pathVerdict, if_pos root]
    exact if_neg (UInt64.lt_irrefl _)
  have starts : (y.proof h l.version l.height k).startsAtKey h = decide
      (h.ofBound (y.reached (Reach.upTo.passes k) 0) = h.leaf k) := by
    simp [MembershipProof.startsAtKey, Layout.proof]
  have present : (y.proof h l.version l.height k).present = decide (.key k ∈ y.row 0) :=
    decide_eq_decide.mpr hl.shaped.reached_upTo_eq_iff
  have verdict : Confirmation.verdict ⟨l.version, y.digest (l.height - 1) .lower⟩
      (y.proof h l.version l.height k) h = if decide (.key k ∈ y.row 0) =
        decide (h.ofBound (y.reached (Reach.upTo.passes k) 0) = h.leaf k) then .correct
      else .incorrect := by
    rw [Confirmation.verdict, path, present, starts]
  refine ⟨_, _, _, hl.prove h k, hl.confirmation, hl.keys, root, path, ?_, ?_, fun hk => ?_,
    fun hk => ?_⟩
  · rw [hl.contains, present]
  · rw [present, decide_eq_true_eq, Layout.mem_keys]
  · have hk := Layout.mem_keys.mp hk
    rw [verdict, hl.shaped.reached_upTo_eq_iff.mpr hk]
    simp [hk, Hasher.ofBound]
  · have hk : .key k ∉ y.row 0 := fun mem => hk (Layout.mem_keys.mpr mem)
    refine ⟨_, hl.shaped.isPredecessor_reached hk, ?_⟩
    rw [verdict]
    simp [hk, eq_comm]

/-- The leaf of 259 is that of the key before it, so the proof that it is not there is refused,
although its path is right. -/
theorem prove_accepted_sample :
    Hasher.byteSum.Commutative ∧ Reachable .byteSum sample ∧
      ∃ p c, sample.prove .byteSum 259 = .ok p ∧ sample.confirmation = .ok c ∧
        c.pathVerdict p .byteSum = .correct ∧ c.verdict p .byteSum = .incorrect := by
  obtain ⟨p, c, keys, ok, root, all, -, path, -, -, -, absent⟩ :=
    Reachable.prove_accepted Hasher.byteSum_commutative reachable_sample 259
  have all' : sample.keys = .ok [3] := by decide +kernel
  rw [all'] at all
  cases all
  obtain ⟨b, before, verdict⟩ := absent (by decide)
  refine ⟨Hasher.byteSum_commutative, reachable_sample, p, c, ok, root, path, verdict.trans ?_⟩
  cases b with
  | lower => exact absurd (by decide) (before 3 (List.mem_singleton_self _))
  | key b =>
    obtain rfl := List.mem_singleton.mp before.1
    decide
  | upper => exact before.elim

end AuthenticatedSet
