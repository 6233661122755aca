import ContextFree.Item

/-!
# States

A state holds the items of one input position in the order in which they were found. Items are only
ever appended, and of equal ones the first is kept, so the index of an item never changes. Next to
its items a state keeps a record of the items admitted so far, against which new ones are judged;
an item may be appended unjudged, after which the items have to be sifted before they are read.

How many items a cell may hold is the retention. Derivations that differ only below a cell reach
it with different provenance, so a few of them are worth keeping; under left recursion they could
pile up round a cycle, and one has to do.

## Main definitions

* `ContextFree.Retention` - how many copies of a cell are kept.
* `ContextFree.State` - items and record.
* `ContextFree.State.insert`, `ContextFree.State.push`, `ContextFree.State.dedup` - appending
  judged, appending unjudged, sifting.

## Main results

* `ContextFree.State.items_insert` - an insertion appends the item or leaves the items as they are.
* `ContextFree.State.record_dedup` - after sifting, the record holds exactly the items.
-/

namespace ContextFree

/-- The most derivations that are reported, and the most copies of a cell that are kept. -/
def derivationLimit : Nat := 4

/-- How many items that differ only in provenance a state keeps. -/
inductive Retention where
  /-- Up to the derivation limit, with different provenance. -/
  | strict
  /-- One, whatever its provenance. -/
  | loose
deriving DecidableEq, Repr, Inhabited

namespace Retention

/-- The number of items that one cell may hold. -/
def copies : Retention → Nat
  | .strict => derivationLimit
  | .loose => 1

/-- Left recursion asks for single copies. -/
def ofLeftRecursive (recursive : Bool) : Retention := if recursive then .loose else .strict

end Retention

/-- The items of one input position, and the record of those that were admitted. -/
structure State where
  /-- How many copies of a cell are kept. -/
  retention : Retention
  /-- The items, in the order in which they were appended. -/
  items : List Item
  /-- The admitted items, oldest first. -/
  record : List Item
deriving Repr, Inhabited

namespace State

/-- The state without items. -/
def empty (retention : Retention) : State := ⟨retention, [], []⟩

/-- The number of items. -/
def size (s : State) : Nat := s.items.length

/-- The number of items in a row of states. -/
def total : List State → Nat
  | [] => 0
  | s :: rest => s.size + total rest

/-- The item at an index. -/
def get? (s : State) (index : Nat) : Option Item := s.items[index]?

/-- A record admits an item whose cell has room and does not hold the same copy already. -/
def admits (retention : Retention) (record : List Item) (item : Item) : Bool :=
  decide ((record.filter item.sameCell).length < retention.copies) && !record.any item.sameCopy

/-- The record has the item; where one copy stands for all, any item of its cell counts. -/
def contains (s : State) (item : Item) : Bool :=
  match s.retention with
  | .strict => s.record.any item.sameCopy
  | .loose => s.record.any item.sameCell

/-- Append an item if the record admits it. -/
def insert (s : State) (item : Item) : State :=
  if admits s.retention s.record item then
    { s with items := s.items ++ [item], record := s.record ++ [item] }
  else s

/-- Insert items one after the other. -/
def insertAll (s : State) (items : List Item) : State := items.foldl insert s

/-- Append an item unjudged and unrecorded. -/
def push (s : State) (item : Item) : State := { s with items := s.items ++ [item] }

/-- The items that a growing record admits in turn. -/
def sift (retention : Retention) (record : List Item) : List Item → List Item
  | [] => record
  | item :: rest =>
    sift retention (if admits retention record item then record ++ [item] else record) rest

/-- Judge all items anew, in order, and keep those that are admitted. -/
def dedup (s : State) : State :=
  let kept := sift s.retention [] s.items
  { s with items := kept, record := kept }

/-! ### What each operation does -/

theorem items_insert (s : State) (item : Item) :
    (s.insert item).items =
      s.items ++ if admits s.retention s.record item then [item] else [] := by
  by_cases h : admits s.retention s.record item = true <;> simp [insert, h]

@[simp] theorem retention_insert (s : State) (item : Item) :
    (s.insert item).retention = s.retention := by
  unfold insert
  split <;> rfl

@[simp] theorem insertAll_nil (s : State) : s.insertAll [] = s := rfl

@[simp] theorem insertAll_cons (s : State) (item : Item) (rest : List Item) :
    s.insertAll (item :: rest) = (s.insert item).insertAll rest := rfl

@[simp] theorem retention_insertAll (s : State) (items : List Item) :
    (s.insertAll items).retention = s.retention := by
  induction items generalizing s with
  | nil => rfl
  | cons item rest ih => rw [insertAll_cons, ih, retention_insert]

@[simp] theorem items_push (s : State) (item : Item) : (s.push item).items = s.items ++ [item] := rfl

@[simp] theorem record_push (s : State) (item : Item) : (s.push item).record = s.record := rfl

theorem record_dedup (s : State) : s.dedup.record = s.dedup.items := rfl

end State

end ContextFree
