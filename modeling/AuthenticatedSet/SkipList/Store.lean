import AuthenticatedSet.SkipList.Bound

/-!
# The list, part 2: nodes in numbered slots

All nodes of a list live in one array and refer to each other by slot number. A slot that a node has
left is remembered and given to the next node that needs one, the slot left last first.

* `Slot`, `Node`, `Store`                      -- a number, what stands in a slot, and all slots
* `Fault`                                      -- what an operation meets only in a broken store
* `Store.get`, `.update`, `.add`, `.discard`   -- the four ways to touch a store

Slot numbers are 32-bit words and the greatest word means "no slot", so a store serves its purpose
below 2^32 - 1 slots.
-/

namespace AuthenticatedSet

/-! ## 1. Slots, nodes and stores -/

/-- The number of a slot. -/
structure Slot where
  index : UInt32
deriving DecidableEq, Repr, Inhabited

/-- No slot: what a link that leads nowhere holds. -/
def Slot.nil : Slot := ⟨0xFFFFFFFF⟩

/-- One bound on one level. -/
structure Node where
  bound : Bound
  /-- The next node on the level; only the right end has none. -/
  right : Slot
  /-- The node of the same bound one level below; only the bottom level has none. -/
  down : Slot
  /-- Whether the bound is on the level above too. -/
  continued : Bool
  /-- What the node commits to, as it was when last computed. A right end has none. -/
  digest : Digest
deriving DecidableEq, Repr

/-- A node on which none stands yet and whose digest is not computed yet. -/
def Node.fresh (bound : Bound) (right down : Slot) : Node :=
  ⟨bound, right, down, false, .empty⟩

/-- All nodes of a list, and the slots free for new ones. -/
structure Store where
  nodes : Array Node
  /-- The free slots, the next one to be given out in front. -/
  free : List Slot
deriving DecidableEq, Repr

/-- What goes wrong in a store whose links do not form a list. No operation on a list that was built
by this library meets one. -/
inductive Fault where
  /-- A link leads to a slot that does not exist. -/
  | dangling (slot : Slot)
  /-- There are more levels than the list counts. -/
  | levelUnderflow
  /-- A key is taken off a list that counts none. -/
  | countUnderflow
  /-- The links of a level lead round in a circle. -/
  | endless
deriving DecidableEq, Repr

/-- The fault in words. -/
def Fault.message : Fault → String
  | .dangling slot => "no node in slot " ++ toString slot.index.toNat
  | .levelUnderflow => "levels below the bottom one"
  | .countUnderflow => "a key removed from an empty list"
  | .endless => "links in a circle"

/-! ## 2. Reading and writing -/

namespace Store

/-- The node in a slot. -/
def get (s : Store) (i : Slot) : Except Fault Node :=
  match s.nodes[i.index.toNat]? with
  | some node => .ok node
  | none => .error (.dangling i)

/-- The store with the node in a slot changed. -/
def update (s : Store) (i : Slot) (f : Node → Node) : Except Fault Store :=
  if h : i.index.toNat < s.nodes.size then
    .ok { s with nodes := s.nodes.set i.index.toNat (f s.nodes[i.index.toNat]) h }
  else
    .error (.dangling i)

/-- The node put into a slot: the free one in front, or one more. -/
def add (s : Store) (node : Node) : Except Fault (Slot × Store) :=
  match s.free with
  | i :: free => do
    let s ← { s with free }.update i fun _ => node
    return (i, s)
  | [] => .ok (⟨s.nodes.size.toUInt32⟩, { s with nodes := s.nodes.push node })

/-- The slot free again. Its node loses links and digest and keeps the rest. -/
def discard (s : Store) (i : Slot) : Except Fault Store := do
  let s ← s.update i fun node => { node with right := .nil, down := .nil, digest := .empty }
  return { s with free := i :: s.free }

/-! ## 3. What a write does to what is read -/

theorem get_eq_ok_iff {s : Store} {i : Slot} {node : Node} :
    s.get i = .ok node ↔ s.nodes[i.index.toNat]? = some node := by
  unfold get
  split <;> simp_all

/-- A slot is written exactly when it exists. -/
theorem update_eq_ok_iff {s s' : Store} {i : Slot} {f : Node → Node} :
    s.update i f = .ok s' ↔
      ∃ h : i.index.toNat < s.nodes.size,
        s' = { s with nodes := s.nodes.set i.index.toNat (f s.nodes[i.index.toNat]) h } := by
  unfold update
  split
  · rename_i h
    simp only [Except.ok.injEq, h, exists_true_left]
    exact eq_comm
  · rename_i h
    simp [h]

theorem get_update_same {s s' : Store} {i : Slot} {f : Node → Node} {node : Node}
    (hget : s.get i = .ok node) (h : s.update i f = .ok s') : s'.get i = .ok (f node) := by
  obtain ⟨bound, rfl⟩ := update_eq_ok_iff.mp h
  rw [get_eq_ok_iff] at hget ⊢
  rw [Array.getElem?_eq_getElem bound, Option.some.injEq] at hget
  simp [bound, hget]

theorem get_update_other {s s' : Store} {i j : Slot} {f : Node → Node}
    (h : s.update i f = .ok s') (ne : i ≠ j) : s'.get j = s.get j := by
  obtain ⟨bound, rfl⟩ := update_eq_ok_iff.mp h
  have : i.index.toNat ≠ j.index.toNat := by
    intro same
    apply ne
    cases i; cases j
    exact congrArg Slot.mk (UInt32.toNat_inj.mp same)
  simp [get, Array.getElem?_set_ne bound this]

end Store

end AuthenticatedSet
