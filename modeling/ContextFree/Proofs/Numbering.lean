import ContextFree.Forest

/-!
# The numbers of the nodes of a tree

The roots of a row have the numbers from one number on, and the nodes below them those from another
one on. Nothing is left out and nothing is given twice, whatever order the nodes are listed in. So
the table of a forest is settled by its entries: a list of as many rows as there are nodes that has
the row of every node at the number of that node is the table, and sorting plays no part in it.

## Main definitions

* `ContextFree.Forest.descendants` - the number of nodes below the roots.
* `ContextFree.Forest.numbers` - the numbers of the nodes, as the nodes are listed.
* `ContextFree.Forest.StoredIn` - rows stand at the numbers of their nodes.

## Main results

* `ContextFree.Forest.numbers_perm` - which numbers the nodes have.
* `ContextFree.Forest.StoredIn.table_eq` - what the table is.
-/

namespace ContextFree

namespace Forest

variable {value : String} {link : Link} {rule : Rule} {children rest f : Forest} {nodes : List Row}
  {id next : Nat}

/-! ### Numbers -/

/-- The number of nodes below the roots of a row. -/
def descendants : Forest → Nat
  | nil => 0
  | leaf _ rest => rest.descendants
  | node _ _ _ children rest => rest.descendants + (children.width + children.descendants)

@[simp] theorem number_snd (f : Forest) (id next : Nat) :
    (f.number id next).2 = next + f.descendants := by
  induction f generalizing id next with
  | nil => rfl
  | leaf value rest ih => exact ih (id + 1) next
  | node value link rule children rest ihc ih =>
    calc (children.number (rest.number (id + 1) next).2 _).2
      _ = (rest.number (id + 1) next).2 + children.width + children.descendants := ihc _ _
      _ = next + rest.descendants + children.width + children.descendants := by rw [ih]
      _ = next + (rest.descendants + (children.width + children.descendants)) := by omega

/-- The numbers of the nodes of a row, as they are listed. -/
def numbers (f : Forest) (id next : Nat) : List Nat := (f.number id next).1.map Prod.fst

theorem numbers_leaf : (leaf value rest).numbers id next = id :: rest.numbers (id + 1) next := rfl

theorem number_node : ((node value link rule children rest).number id next).1 =
    (id, ⟨value, some link, List.range' (next + rest.descendants) children.width⟩) ::
      ((children.number (next + rest.descendants) (next + rest.descendants + children.width)).1 ++
        (rest.number (id + 1) next).1) := by
  rw [← number_snd rest (id + 1) next]
  rfl

theorem numbers_node : (node value link rule children rest).numbers id next =
    id :: (children.numbers (next + rest.descendants) (next + rest.descendants + children.width) ++
      rest.numbers (id + 1) next) := by
  rw [numbers, number_node, List.map_cons, List.map_append]
  rfl

/-- **The numbers of the nodes**: those from one number on for the roots, and those from another one
on for the nodes below them. -/
theorem numbers_perm (f : Forest) (id next : Nat) :
    (f.numbers id next).Perm (List.range' id f.width ++ List.range' next f.descendants) := by
  induction f generalizing id next with
  | nil => exact .refl []
  | leaf value rest ih =>
    rw [width, List.range'_succ]
    exact (ih (id + 1) next).cons id
  | node value link rule children rest ihc ih =>
    have hchildren := ihc (next + rest.descendants) (next + rest.descendants + children.width)
    rw [List.range'_append_1] at hchildren
    rw [numbers_node, width, descendants, List.range'_succ, ← List.range'_append_1,
      List.cons_append, ← List.append_assoc]
    exact (List.perm_append_comm.trans ((ih (id + 1) next).append hchildren)).cons id

@[simp] theorem length_numbers (f : Forest) (id next : Nat) :
    (f.numbers id next).length = f.width + f.descendants := by
  rw [(numbers_perm f id next).length_eq, List.length_append, List.length_range',
    List.length_range']

/-- No number is given twice if the roots have other numbers than the nodes below them. -/
theorem nodup_numbers (h : id + f.width ≤ next) : (f.numbers id next).Nodup := by
  refine (numbers_perm f id next).nodup_iff.mpr (List.nodup_append.mpr
    ⟨List.nodup_range', List.nodup_range', fun a ha b hb => ?_⟩)
  have hroot := List.mem_range'_1.mp ha
  have hbelow := List.mem_range'_1.mp hb
  omega

/-! ### Tables -/

/-- The row of every node stands at the number of the node. -/
def StoredIn (f : Forest) (nodes : List Row) (id next : Nat) : Prop :=
  ∀ entry ∈ (f.number id next).1, nodes[entry.1]? = some entry.2

theorem storedIn_leaf : (leaf value rest).StoredIn nodes id next ↔
    nodes[id]? = some ⟨value, none, []⟩ ∧ rest.StoredIn nodes (id + 1) next :=
  List.forall_mem_cons

theorem storedIn_node : (node value link rule children rest).StoredIn nodes id next ↔
    nodes[id]? = some ⟨value, some link, List.range' (next + rest.descendants) children.width⟩ ∧
      children.StoredIn nodes (next + rest.descendants) (next + rest.descendants + children.width) ∧
        rest.StoredIn nodes (id + 1) next := by
  rw [StoredIn, number_node, List.forall_mem_cons, List.forall_mem_append]
  rfl

/-- Sorted by number, the nodes have the numbers from zero on. -/
theorem map_fst_mergeSort (f : Forest) :
    ((f.number 0 f.width).1.mergeSort fun a b => a.1 ≤ b.1).map Prod.fst =
      List.range' 0 (f.width + f.descendants) := by
  have hperm : (((f.number 0 f.width).1.mergeSort fun a b => a.1 ≤ b.1).map Prod.fst).Perm
      (List.range' 0 (f.width + f.descendants)) := by
    refine ((List.mergeSort_perm _ _).map _).trans ((numbers_perm f 0 f.width).trans ?_)
    rw [← List.range'_append_1, Nat.zero_add]
  have hsorted : ((f.number 0 f.width).1.mergeSort fun a b => a.1 ≤ b.1).Pairwise
      fun a b => decide (a.1 ≤ b.1) = true := by
    refine List.pairwise_mergeSort (fun a b c hab hbc => ?_) (fun a b => ?_) _
    · exact decide_eq_true (Nat.le_trans (of_decide_eq_true hab) (of_decide_eq_true hbc))
    · simpa using Nat.le_total a.1 b.1
  refine hperm.eq_of_pairwise (fun _ _ _ _ => Nat.le_antisymm) ?_ (List.pairwise_le_range' 1)
  exact List.pairwise_map.mpr (hsorted.imp of_decide_eq_true)

@[simp] theorem length_table (f : Forest) : f.table.length = f.width + f.descendants := by
  have hlength := congrArg List.length (map_fst_mergeSort f)
  rw [List.length_map, List.length_range'] at hlength
  rw [table, List.length_map, hlength]

/-- **What the table is**: the list of as many rows as nodes that has every row at its number. -/
theorem StoredIn.table_eq (h : f.StoredIn nodes 0 f.width)
    (hlength : nodes.length = f.width + f.descendants) : f.table = nodes := by
  refine List.ext_getElem (by rw [length_table, hlength]) fun k hk hk' => ?_
  obtain ⟨entry, hentry, hrow⟩ : ∃ entry : Nat × Row,
      ((f.number 0 f.width).1.mergeSort fun a b => a.1 ≤ b.1)[k]? = some entry ∧
        entry.2 = f.table[k] := by
    rw [← Option.map_eq_some_iff, ← List.getElem?_map]
    exact List.getElem?_eq_getElem hk
  have hnumber : entry.1 = k := by
    have hget := congrArg (fun numbers : List Nat => numbers[k]?) (map_fst_mergeSort f)
    simp only [List.getElem?_map, hentry, Option.map_some,
      List.getElem?_range' (hlength ▸ hk'), Option.some.injEq] at hget
    omega
  have hstored : nodes[entry.1]? = some entry.2 :=
    h entry ((List.mergeSort_perm _ _).subset (List.mem_of_getElem? hentry))
  rw [hnumber, List.getElem?_eq_getElem hk', Option.some.injEq] at hstored
  rw [hstored, hrow]

end Forest

end ContextFree
