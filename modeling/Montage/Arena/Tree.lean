import Montage.Arena.Table

/-!
Ordered trees of values whose nodes are reached by handle. A node is created detached and attached
later; a handle whose node is gone may still be used, and then stands for no node.
-/

namespace Montage

/-- An ordered tree as a plain value. -/
inductive Rose (α : Type) where
  | node (item : α) (children : List (Rose α))

structure Slot (α : Type) where
  value : α
  parent : Option NodeId
  children : List NodeId

structure Tree (α : Type) where
  slots : Table (Slot α)
  next : NodeId

namespace Tree

variable {α : Type}

def empty : Tree α := ⟨.empty, 1⟩

def contains (t : Tree α) (id : NodeId) : Bool :=
  t.slots.contains id

/-- The number of live nodes. -/
def size (t : Tree α) : Nat :=
  t.slots.size

def get? (t : Tree α) (id : NodeId) : Option α :=
  (t.slots.get? id).map Slot.value

def parent? (t : Tree α) (id : NodeId) : Option NodeId :=
  (t.slots.get? id).bind Slot.parent

def children (t : Tree α) (id : NodeId) : List NodeId :=
  ((t.slots.get? id).map Slot.children).getD []

def create (t : Tree α) (v : α) : Tree α × NodeId :=
  (⟨t.slots.insert t.next ⟨v, none, []⟩, t.next + 1⟩, t.next)

def modifySlot (t : Tree α) (id : NodeId) (f : Slot α → Slot α) : Tree α :=
  { t with slots := t.slots.modify id f }

def modify (t : Tree α) (id : NodeId) (f : α → α) : Tree α :=
  t.modifySlot id fun s => { s with value := f s.value }

def set (t : Tree α) (id : NodeId) (v : α) : Tree α :=
  t.modify id fun _ => v

/-- Takes a node out of its parent and keeps its subtree. -/
def detach (t : Tree α) (id : NodeId) : Tree α :=
  match t.parent? id with
  | none => t
  | some p =>
    (t.modifySlot p fun s => { s with children := s.children.filter (· != id) }).modifySlot id
      fun s => { s with parent := none }

/-- Makes `child` the last child of `parent`; nothing happens unless both are live. -/
def append (t : Tree α) (parent child : NodeId) : Tree α :=
  if t.contains parent && t.contains child then
    ((t.detach child).modifySlot parent fun s => { s with children := s.children ++ [child] }).modifySlot
      child fun s => { s with parent := some parent }
  else t

/-- Puts `ids` where `target` stands in a list. -/
def putAt (target : NodeId) (ids : List NodeId) : List NodeId → List NodeId
  | [] => []
  | c :: r => if c = target then ids ++ r else c :: putAt target ids r

/-- Puts `ids` in the place of `target` in its parent, and tells whether there was such a place. -/
def replace (t : Tree α) (target : NodeId) (ids : List NodeId) : Tree α × Bool :=
  match t.parent? target with
  | none => (t, false)
  | some p =>
    let t := ids.foldl detach t
    if (t.children p).contains target then
      let t := t.modifySlot p fun s => { s with children := putAt target ids s.children }
      let t := ids.foldl (fun t id => t.modifySlot id fun s => { s with parent := some p }) t
      (t.modifySlot target fun s => { s with parent := none }, true)
    else (t, false)

/-- Removes the nodes on a stack and everything below them, a last child before the others. -/
def removeAll (slots : Table (Slot α)) (stack : List NodeId) : Table (Slot α) × List NodeId :=
  match stack with
  | [] => (slots, [])
  | id :: rest =>
    match _h : slots.get? id with
    | none => removeAll slots rest
    | some s =>
      let r := removeAll (slots.erase id) (s.children.reverse ++ rest)
      (r.1, id :: r.2)
termination_by (slots.size, stack.length)
decreasing_by
  · exact Prod.Lex.right _ (by simp)
  · exact Prod.Lex.left _ _ (Table.size_erase_lt (by simp [Table.contains, _h]))

/-- Removes a node with its subtree, and tells the removed handles. -/
def remove (t : Tree α) (id : NodeId) : Tree α × List NodeId :=
  let t := t.detach id
  let r := removeAll t.slots [id]
  ({ t with slots := r.1 }, r.2)

/-- Ancestors, nearest first, of which there are at most `fuel`. -/
def ancestorsWithin (t : Tree α) : Nat → NodeId → List NodeId
  | 0, _ => []
  | fuel + 1, id =>
    match t.parent? id with
    | none => []
    | some p => p :: ancestorsWithin t fuel p

def ancestors (t : Tree α) (id : NodeId) : List NodeId :=
  t.ancestorsWithin t.size id

/-- A handle followed by its ancestors. -/
def lineage (t : Tree α) (id : NodeId) : List NodeId :=
  id :: t.ancestors id

def descendantsWithin (t : Tree α) : Nat → NodeId → List NodeId
  | 0, _ => []
  | fuel + 1, id =>
    if t.contains id then id :: (t.children id).flatMap (descendantsWithin t fuel) else []

/-- The live nodes of a subtree, a node before its children; no path is longer than the tree has
nodes. -/
def descendants (t : Tree α) (id : NodeId) : List NodeId :=
  t.descendantsWithin t.size id

def subtreeWithin (t : Tree α) : Nat → NodeId → Option (Rose α)
  | 0, _ => none
  | fuel + 1, id =>
    match t.slots.get? id with
    | none => none
    | some s => some (.node s.value (s.children.filterMap (subtreeWithin t fuel)))

/-- The subtree at a live node, as a plain value. -/
def subtree? (t : Tree α) (id : NodeId) : Option (Rose α) :=
  t.subtreeWithin t.size id

/-- A new last child of `parent`. The node is made even if `parent` is gone. -/
def attach (t : Tree α) (parent : NodeId) (v : α) : Tree α × NodeId :=
  let (t, id) := t.create v
  (t.append parent id, id)

mutual

/-- Makes the nodes of a plain tree, at the end of `parent`. -/
def plant (t : Tree α) (parent : NodeId) : Rose α → Tree α
  | .node item children =>
    let (t, id) := t.attach parent item
    plantAll t id children

def plantAll (t : Tree α) (parent : NodeId) : List (Rose α) → Tree α
  | [] => t
  | r :: rs => plantAll (plant t parent r) parent rs

end

/-- Makes the nodes of a plain tree, detached, and tells its root. -/
def grow (t : Tree α) : Rose α → Tree α × NodeId
  | .node item children =>
    let (t, id) := t.create item
    (t.plantAll id children, id)

end Tree

end Montage
