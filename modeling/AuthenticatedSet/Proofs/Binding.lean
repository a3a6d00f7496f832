import AuthenticatedSet.Proofs.Completeness
import AuthenticatedSet.Proofs.Soundness

/-!
# The root digest binds the keys

Two lists with the same root digest have the same keys, unless two different inputs that the digest
rule evaluates over them have one digest. So a proof taken from one list does not lead to the root
digest of another list with other keys.

The terms of the two lists are walked down together from their roots. Where the digests are equal
and nothing collides, they differ in no more than the order of their pairs, and so have the same
keys in them; the keys of a term are all those of its list.

* `CollisionFree`                  -- no two different inputs of a kind have one digest
* `HashTerm.Alike`                 -- terms that differ in no more than the order of pairs
* `HashTerm.alike_or_collide`      -- equal digests are those of terms that are alike
* `Describes.mem_bounds_of_spans`  -- what a place commits to is in its term
* `Reachable.keys_eq_or_collision` -- equal root digests, equal keys
* `Reachable.root_binds_keys`      -- the whole statement
-/

namespace AuthenticatedSet

/-! ## 1. Terms that are alike -/

/-- Among the inputs with the property, no two different ones have the same digest. -/
def CollisionFree (h : Hasher) (P : HashInput → Prop) : Prop :=
  ∀ x y, P x → P y → x.digest h = y.digest h → x.Same y

theorem CollisionFree.not_collide {h : Hasher} {P : HashInput → Prop} {xs ys : List HashInput}
    (free : CollisionFree h P) (left : ∀ x ∈ xs, P x) (right : ∀ y ∈ ys, P y) :
    ¬ Collide h xs ys := fun ⟨x, hx, y, hy, differ, same⟩ =>
  differ (free x y (left x hx) (right y hy) same)

theorem HashInput.eq_of_same_ofBound {b c : Bound} (same : (ofBound b).Same (ofBound c)) :
    ofBound b = ofBound c := by
  cases b with
  | key k =>
    cases c with
    | key k' => exact congrArg leaf same
    | lower | upper => exact same.elim
  | lower | upper =>
    cases c with
    | key k' => exact same.elim
    | lower | upper => rfl

namespace HashTerm

/-- The terms differ in no more than the order of pairs. The two ends of a level count as one, as
they have the same digest for every hasher. -/
inductive Alike : HashTerm → HashTerm → Prop
  | bound {b c : Bound} (same : HashInput.ofBound b = HashInput.ofBound c) :
      Alike (.bound b) (.bound c)
  | pair {left right left' right' : HashTerm} (first : Alike left left')
      (second : Alike right right') : Alike (.pair left right) (.pair left' right')
  | swapped {left right left' right' : HashTerm} (first : Alike left right')
      (second : Alike right left') : Alike (.pair left right) (.pair left' right')

/-- **Terms that are alike have the same keys.** -/
theorem Alike.key_mem_iff {term term' : HashTerm} {k : Key} (alike : term.Alike term') :
    .key k ∈ term.bounds ↔ .key k ∈ term'.bounds := by
  induction alike with
  | @bound b c same => cases b <;> cases c <;> simp_all [HashInput.ofBound, bounds]
  | pair _ _ first second => rw [bounds, bounds, List.mem_append, List.mem_append, first, second]
  | swapped _ _ first second =>
    rw [bounds, bounds, List.mem_append, List.mem_append, first, second, or_comm]

/-- A collision met in parts of two pairs is one of the pairs. -/
theorem collide_of_parts {h : Hasher} {left right left' right' : HashTerm} {xs ys : List HashInput}
    (collide : Collide h xs ys) (part : xs ⊆ left.inputs h ++ right.inputs h)
    (part' : ys ⊆ left'.inputs h ++ right'.inputs h) :
    Collide h ((pair left right).inputs h) ((pair left' right').inputs h) :=
  collide.mono (List.subset_cons_of_subset _ part) (List.subset_cons_of_subset _ part')

/-- **Two terms walked down together**: if they have the same digest they are alike, or an input of
the one collides with an input of the other. -/
theorem alike_or_collide (h : Hasher) (term term' : HashTerm)
    (same : term.digest h = term'.digest h) :
    term.Alike term' ∨ Collide h (term.inputs h) (term'.inputs h) := by
  induction term generalizing term' with
  | bound b =>
    have top : HashInput.ofBound b ∈ (bound b).inputs h := List.mem_singleton_self _
    rw [digest, ← HashInput.digest_ofBound] at same
    cases term' with
    | bound c =>
      by_cases input : HashInput.ofBound b = HashInput.ofBound c
      · exact .inl (.bound input)
      · refine .inr ⟨_, top, .ofBound c, List.mem_singleton_self _, ?_, ?_⟩
        · exact mt HashInput.eq_of_same_ofBound input
        · rw [same, HashInput.digest_ofBound]
          rfl
    | pair left' right' =>
      refine .inr ⟨_, top, _, List.mem_cons_self, ?_, same⟩
      cases b <;> exact id
  | pair left right first second =>
    cases term' with
    | bound c =>
      refine .inr ⟨_, List.mem_cons_self, .ofBound c, List.mem_singleton_self _, ?_, ?_⟩
      · cases c <;> exact id
      · rw [HashInput.digest_ofBound]
        exact same
    | pair left' right' =>
      by_cases input : s(left.digest h, right.digest h) = s(left'.digest h, right'.digest h)
      · -- the parts agree, straight or crosswise
        rcases Sym2.eq_iff.mp input with ⟨one, other⟩ | ⟨one, other⟩
        · rcases first left' one with alike | collide
          · rcases second right' other with alike' | collide
            · exact .inl (.pair alike alike')
            · exact .inr (collide_of_parts collide (List.subset_append_right _ _)
                (List.subset_append_right _ _))
          · exact .inr (collide_of_parts collide (List.subset_append_left _ _)
              (List.subset_append_left _ _))
        · rcases first right' one with alike | collide
          · rcases second left' other with alike' | collide
            · exact .inl (.swapped alike alike')
            · exact .inr (collide_of_parts collide (List.subset_append_right _ _)
                (List.subset_append_left _ _))
          · exact .inr (collide_of_parts collide (List.subset_append_left _ _)
              (List.subset_append_right _ _))
      · exact .inr ⟨_, List.mem_cons_self, _, List.mem_cons_self, input, same⟩

end HashTerm

/-! ## 2. The keys in the term of a list -/

namespace Layout

variable {y : Layout} {s : Store} {l : SkipList} {height m : Nat} {b c : Bound} {i : Slot}
  {node right : Node} {term : HashTerm} {k : Key}

/-- A node whose right link leads somewhere, and the node there, are those of the layout. -/
theorem Describes.beside (hs : y.Describes s) (hy : y.Shaped height) (hb : b ∈ y.row m)
    (here : s.get (y.slot m b) = .ok node) (next : s.get node.right = .ok right) :
    b ≠ .upper ∧ node = y.node m b ∧ right = y.node m (y.next m b) ∧
      node.right = y.slot m (y.next m b) := by
  rw [hs.get hb] at here
  cases here
  have ne : b ≠ .upper := fun same => hs.sound.fits.ne_nil next (if_pos same)
  rw [hs.get_right ne (hy.next_mem hb)] at next
  cases next
  exact ⟨ne, rfl, rfl, right_of_ne ne⟩

/-- The bounds that a place commits to: those from its own on, before the next one of the level
above. -/
def Commits (y : Layout) (m : Nat) (b c : Bound) : Prop :=
  c ∈ y.row 0 ∧ b ≤ c ∧ c < y.next (m + 1) b

/-- A place whose neighbour is covered commits to nothing from there on. -/
theorem Shaped.lt_next_of_covered (hy : y.Shaped height) (hb : b ∈ y.row m) (ne : b ≠ .upper)
    (covered : (y.node m (y.next m b)).isCovered = true) (commits : y.Commits m b c) :
    c < y.next m b := by
  refine lt_of_lt_of_le commits.2.2 ?_
  rcases (hy.isCovered_iff (hy.next_mem hb)).mp covered with above | last
  · exact hy.next_le above (Shaped.lt_next ne)
  · exact last ▸ Bound.le_upper _

/-- A place whose neighbour is exposed commits to what the neighbour commits to. -/
theorem Shaped.commits_next (hy : y.Shaped height) (hb : b ∈ y.row m) (ne : b ≠ .upper)
    (exposed : (y.node m (y.next m b)).isCovered = false) (commits : y.Commits m b c)
    (le : y.next m b ≤ c) : y.Commits m (y.next m b) c := by
  have absent : y.next m b ∉ y.row (m + 1) := fun above => by
    have := (hy.isCovered_iff (hy.next_mem hb)).mpr (.inl above)
    rw [exposed] at this
    cases this
  have skip : y.next (m + 1) (y.next m b) = y.next (m + 1) b :=
    nextIn_skip (hy.sorted m) (fun _ => hy.nested) ne absent
  exact ⟨commits.1, le, skip ▸ commits.2.2⟩

/-- Before its neighbour on the bottom level there is nothing but the bound itself. -/
theorem Shaped.eq_of_lt_next (hy : y.Shaped height) (hc : c ∈ y.row 0) (le : b ≤ c)
    (lt : c < y.next 0 b) : c = b := by
  by_contra ne
  exact (hy.next_le hc (lt_of_le_of_ne le (Ne.symm ne))).not_gt lt

/-- **What a place commits to is in its term.** -/
theorem Describes.mem_bounds_of_spans (hs : y.Describes s) (hy : y.Shaped height)
    (spans : s.Spans i term) (hb : b ∈ y.row m) (place : i = y.slot m b)
    (commits : y.Commits m b c) : c ∈ term.bounds := by
  induction spans generalizing m b with
  | bottomCovered here next bottom covered =>
    subst place
    obtain ⟨ne, rfl, rfl, -⟩ := hs.beside hy hb here next
    cases m with
    | zero =>
      have lt := hy.lt_next_of_covered hb ne covered commits
      obtain rfl := hy.eq_of_lt_next commits.1 commits.2.1 lt
      exact List.mem_cons_self
    | succ m => exact absurd bottom (hs.slot_ne_nil (hy.nested hb))
  | bottomExposed here next bottom exposed beside ih =>
    subst place
    obtain ⟨ne, rfl, rfl, link⟩ := hs.beside hy hb here next
    cases m with
    | zero =>
      rcases lt_or_ge c (y.next 0 b) with lt | le
      · obtain rfl := hy.eq_of_lt_next commits.1 commits.2.1 lt
        exact List.mem_cons_self
      · exact List.mem_append_right _
          (ih (hy.next_mem hb) link (hy.commits_next hb ne exposed commits le))
    | succ m => exact absurd bottom (hs.slot_ne_nil (hy.nested hb))
  | aboveCovered here next above covered below ih =>
    subst place
    obtain ⟨ne, rfl, rfl, -⟩ := hs.beside hy hb here next
    cases m with
    | zero => exact absurd rfl above
    | succ m =>
      have lt := hy.lt_next_of_covered hb ne covered commits
      exact ih (hy.nested hb) rfl ⟨commits.1, commits.2.1, lt⟩
  | aboveExposed here next above exposed below beside ih ih' =>
    subst place
    obtain ⟨ne, rfl, rfl, link⟩ := hs.beside hy hb here next
    cases m with
    | zero => exact absurd rfl above
    | succ m =>
      rcases lt_or_ge c (y.next (m + 1) b) with lt | le
      · exact List.mem_append_left _ (ih (hy.nested hb) rfl ⟨commits.1, commits.2.1, lt⟩)
      · exact List.mem_append_right _
          (ih' (hy.next_mem hb) link (hy.commits_next hb ne exposed commits le))

/-- **The keys in the term of a list** are all keys of the list, and no others. -/
theorem Carries.key_mem_bounds_iff (hl : y.Carries l) (spans : l.store.Spans l.top.lower term) :
    .key k ∈ term.bounds ↔ k ∈ y.keys := by
  rw [mem_keys]
  constructor
  · exact hl.mem_of_spans .top spans _
  · intro hk
    have last : y.next (l.height - 1 + 1) .lower = .upper := by
      rw [Nat.sub_add_cancel hl.shaped.positive, next, hl.shaped.beyond le_rfl]
      rfl
    exact hl.describes.mem_bounds_of_spans hl.shaped spans hl.top_lower_mem hl.lower
      ⟨hk, Bound.lower_le _, last ▸ Bound.key_lt_upper k⟩

end Layout

/-! ## 3. The statement -/

open Layout in
/-- **Equal root digests, equal keys**, or an input that the digest rule evaluates over the one list
collides with one that it evaluates over the other. -/
theorem Reachable.keys_eq_or_collision {h : Hasher} {l l' : SkipList} (reach : Reachable h l)
    (reach' : Reachable h l') : ∃ c c' keys keys', l.confirmation = .ok c ∧
      l'.confirmation = .ok c' ∧ l.keys = .ok keys ∧ l'.keys = .ok keys' ∧
      (c.digest = c'.digest → keys = keys' ∨
        ∃ x x', l.Evaluates h x ∧ l'.Evaluates h x' ∧ ¬ x.Same x' ∧ x.digest h = x'.digest h) := by
  obtain ⟨y, hl, current⟩ := reach.exists_layout
  obtain ⟨y', hl', current'⟩ := reach'.exists_layout
  refine ⟨_, _, _, _, hl.confirmation, hl'.confirmation, hl.keys, hl'.keys, fun same => ?_⟩
  obtain ⟨term, spans, digest⟩ := hl.exists_spans_top current
  obtain ⟨term', spans', digest'⟩ := hl'.exists_spans_top current'
  rcases HashTerm.alike_or_collide h term term' (digest.symm.trans (same.trans digest')) with
    alike | ⟨x, hx, x', hx', rest⟩
  · refine .inl (hl.shaped.keys_sorted.eq_of_mem_iff hl'.shaped.keys_sorted fun {k} => ?_)
    rw [← hl.key_mem_bounds_iff spans, ← hl'.key_mem_bounds_iff spans', alike.key_mem_iff]
  · exact .inr ⟨x, x', hl.evaluates current .top spans x hx,
      hl'.evaluates current' .top spans' x' hx', rest⟩

/-- **The root digest binds the keys**: if no two different inputs that the digest rule evaluates
over the two lists have one digest, equal root digests come with equal keys. So what one list proves
about a key is never correct for a list with other keys: it is stale if its version is the lower
one, and incorrect otherwise. -/
theorem Reachable.root_binds_keys {h : Hasher} {l l' : SkipList} (reach : Reachable h l)
    (reach' : Reachable h l') (free : CollisionFree h fun x => l.Evaluates h x ∨ l'.Evaluates h x) :
    ∃ c c' keys keys', l.confirmation = .ok c ∧ l'.confirmation = .ok c' ∧
      l.keys = .ok keys ∧ l'.keys = .ok keys' ∧ (c.digest = c'.digest → keys = keys') ∧
      (h.Commutative → keys ≠ keys' → ∀ k, ∃ p, l.prove h k = .ok p ∧
        c'.pathVerdict p h = if l.version < l'.version then .stale else .incorrect) := by
  obtain ⟨c, c', keys, keys', confirmed, confirmed', all, all', binds⟩ :=
    reach.keys_eq_or_collision reach'
  have binds : c.digest = c'.digest → keys = keys' := fun same =>
    (binds same).resolve_right fun ⟨x, x', hx, hx', differ, collide⟩ =>
      differ (free x x' (.inl hx) (.inr hx') collide)
  refine ⟨c, c', keys, keys', confirmed, confirmed', all, all', binds, fun comm other k => ?_⟩
  obtain ⟨d, root, -, proofs⟩ := reach.prove_leads_to_root comm
  obtain ⟨d', root', version', -⟩ := reach'.prove_leads_to_root comm
  obtain rfl := Except.ok.inj (root.symm.trans confirmed)
  obtain rfl := Except.ok.inj (root'.symm.trans confirmed')
  obtain ⟨p, proved, version, leads⟩ := proofs k
  refine ⟨p, proved, ?_⟩
  rw [Confirmation.pathVerdict_of_root leads, version, version', if_neg (mt binds other)]

/-! ## 4. The inputs computed, and a run -/

/-- The inputs that the digest rule evaluates at the nodes in all slots, the free ones too as far as
they have neighbours. -/
def Store.inputs (s : Store) (h : Hasher) : List HashInput :=
  s.nodes.toList.flatMap fun node =>
    match s.get node.right, s.digestBelow node with
    | .ok right, .ok below => h.commitInputs node.bound below right.share
    | _, _ => []

theorem SkipList.Evaluates.mem_inputs {l : SkipList} {h : Hasher} {x : HashInput}
    (evaluates : l.Evaluates h x) : x ∈ l.store.inputs h := by
  obtain ⟨i, node, right, below, -, here, -, next, under, mem⟩ := evaluates
  refine List.mem_flatMap.mpr ⟨node, ?_, ?_⟩
  · exact Array.mem_toList_iff.mpr (Array.mem_of_getElem? (Store.get_eq_ok_iff.mp here))
  · rw [next, under]
    exact mem

instance HashInput.decidableSame : DecidableRel HashInput.Same
  | leaf k, leaf k' => inferInstanceAs (Decidable (k = k'))
  | pair a b, pair a' b' => inferInstanceAs (Decidable (s(a, b) = s(a', b')))
  | endMark, endMark => isTrue trivial
  | leaf _, pair _ _ | leaf _, endMark | pair _ _, leaf _ | pair _ _, endMark | endMark, leaf _
  | endMark, pair _ _ => isFalse id

/-- Nothing collides if nothing does in a list of all inputs. -/
theorem CollisionFree.of_list {h : Hasher} {P : HashInput → Prop} {inputs : List HashInput}
    (listed : ∀ x, P x → x ∈ inputs)
    (apart : ∀ x ∈ inputs, ∀ x' ∈ inputs, x.digest h = x'.digest h → x.Same x') :
    CollisionFree h P :=
  fun x x' hx hx' => apart x (listed x hx) x' (listed x' hx')

/-- The list of 3 and 10 that `sample` becomes: the key 10 is on both levels, in the two slots that
were free. -/
def sampleOfTwo : SkipList where
  store :=
    { nodes := #[
        ⟨.upper, .nil, .nil, true, ⟨[]⟩⟩, ⟨.lower, ⟨6⟩, .nil, true, ⟨[15]⟩⟩,
        ⟨.key 10, ⟨3⟩, ⟨5⟩, false, ⟨[11]⟩⟩, ⟨.upper, .nil, ⟨0⟩, false, ⟨[]⟩⟩,
        ⟨.lower, ⟨2⟩, ⟨1⟩, false, ⟨[27]⟩⟩, ⟨.key 10, ⟨0⟩, .nil, true, ⟨[11]⟩⟩,
        ⟨.key 3, ⟨5⟩, .nil, false, ⟨[14]⟩⟩]
      free := [] }
  top := ⟨⟨4⟩, ⟨3⟩⟩
  height := 2
  size := 2
  version := 4

theorem reachable_sampleOfTwo : Reachable .byteSum sampleOfTwo := by
  have run : (do
      let put ← sample.insert .byteSum 10 (.ofWords [1])
      return put.1.list) = .ok sampleOfTwo := by decide +kernel
  obtain ⟨⟨change, _⟩, ok, run⟩ := bind_eq_ok_iff.mp run
  have last : change.list = sampleOfTwo := Except.ok.inj run
  have fits : change.list.store.Fits := by
    rw [last]
    unfold Store.Fits
    decide
  exact last ▸ .insert reachable_sample ok fits

/-- Whatever the list of 3 and 10 proves is incorrect for the list of 3 alone. -/
theorem root_binds_keys_sample :
    Reachable .byteSum sampleOfTwo ∧ Reachable .byteSum sample ∧
      CollisionFree .byteSum (fun x => sampleOfTwo.Evaluates .byteSum x ∨
        sample.Evaluates .byteSum x) ∧ Hasher.byteSum.Commutative ∧
      sampleOfTwo.keys = .ok [3, 10] ∧ sample.keys = .ok [3] ∧
      ∃ c, sample.confirmation = .ok c ∧ ∀ k, ∃ p, sampleOfTwo.prove .byteSum k = .ok p ∧
        c.pathVerdict p .byteSum = .incorrect := by
  have apart : ∀ x ∈ sampleOfTwo.store.inputs .byteSum ++ sample.store.inputs .byteSum,
      ∀ x' ∈ sampleOfTwo.store.inputs .byteSum ++ sample.store.inputs .byteSum,
        x.digest .byteSum = x'.digest .byteSum → x.Same x' := by decide +kernel
  have free : CollisionFree .byteSum fun x => sampleOfTwo.Evaluates .byteSum x ∨
      sample.Evaluates .byteSum x := fun x x' hx hx' =>
    apart x (List.mem_append.mpr (hx.imp (·.mem_inputs) (·.mem_inputs)))
      x' (List.mem_append.mpr (hx'.imp (·.mem_inputs) (·.mem_inputs)))
  obtain ⟨-, c, keys, keys', -, confirmed, all, all', -, verdict⟩ :=
    Reachable.root_binds_keys reachable_sampleOfTwo reachable_sample free
  have two : sampleOfTwo.keys = .ok [3, 10] := by decide +kernel
  have one : sample.keys = .ok [3] := by decide +kernel
  rw [two] at all
  rw [one] at all'
  cases all
  cases all'
  exact ⟨reachable_sampleOfTwo, reachable_sample, free, Hasher.byteSum_commutative, two, one, c,
    confirmed, verdict Hasher.byteSum_commutative (by decide)⟩

end AuthenticatedSet
