import ContextFree.Item

/-!
# Forests

A forest is a row of trees. A tree is a leaf with a value, or a node with a value, the link of the
completed item it was unfolded from, that item's rule, and a row of children. Spelling a forest as
the tree in front and the trees after it keeps every function on trees a plain recursion.

## Main definitions

* `ContextFree.Forest` - rows of trees.
* `ContextFree.Forest.rules` - the rules of the nodes, a node before its children.
* `ContextFree.Forest.frontier` - the leaves from left to right.
* `ContextFree.Forest.table` - the nodes under numbers, with the numbers of their children.
-/

namespace ContextFree

/-- A row of trees. -/
inductive Forest where
  /-- No tree. -/
  | nil
  /-- A leaf and the trees after it. -/
  | leaf (value : String) (rest : Forest)
  /-- A node unfolded from an item, its children, and the trees after it. -/
  | node (value : String) (link : Link) (rule : Rule) (children rest : Forest)
deriving DecidableEq, Repr, Inhabited

namespace Forest

/-- The number of trees in the row. -/
def width : Forest → Nat
  | nil => 0
  | leaf _ rest => rest.width + 1
  | node _ _ _ _ rest => rest.width + 1

/-- The rules of the nodes in preorder: a node, its children, the trees after it. -/
def rules : Forest → List Rule
  | nil => []
  | leaf _ rest => rest.rules
  | node _ _ rule children rest => rule :: (children.rules ++ rest.rules)

/-- The values of the leaves, left to right. -/
def frontier : Forest → List String
  | nil => []
  | leaf value rest => value :: rest.frontier
  | node _ _ _ children rest => children.frontier ++ rest.frontier

/-! ### Numbered nodes

The children of a node are numbered together, from left to right, when the node is expanded. Nodes
are expanded from the root on, the trees of a row from right to left, each to its leaves before the
next. -/

/-- One node of a table: its value, the link of a node that is no leaf, its children by number. -/
structure Row where
  /-- The value of the node. -/
  value : String
  /-- The link the node was unfolded from. -/
  link : Option Link
  /-- The numbers of the children. -/
  children : List Nat
deriving DecidableEq, Repr

/-- The numbered nodes of a row of trees whose roots have the numbers from `id` on, and the next free
number, given the next free number before. -/
def number : Forest → Nat → Nat → List (Nat × Row) × Nat
  | nil, _, next => ([], next)
  | leaf value rest, id, next =>
    let (later, next) := rest.number (id + 1) next
    ((id, ⟨value, none, []⟩) :: later, next)
  | node value link _ children rest, id, next =>
    let (later, next) := rest.number (id + 1) next
    let (below, free) := children.number next (next + children.width)
    ((id, ⟨value, some link, List.range' next children.width⟩) :: (below ++ later), free)

/-- The nodes of a forest in the order of their numbers. -/
def table (f : Forest) : List Row :=
  ((f.number 0 f.width).1.mergeSort fun a b => a.1 ≤ b.1).map Prod.snd

end Forest

end ContextFree
