import ContextFree.State
import Mathlib.Data.List.Basic

/-!
# Inserting items into a state

A cell is a rule with a dot and a start. Inserting items never moves an item that is there, adds no
item that was not offered, and leaves an item in the cell of every item offered: an item is refused
only if its cell is taken. A cell never holds more items than the retention allows, so a state with
finitely many cells is finite.

All of this is about states whose record is their items, which is so for every state that was made
by insertions alone.

## Main definitions

* `ContextFree.Cell`, `ContextFree.Item.cell` - rule, dot and start of an item.
* `ContextFree.State.Aligned` - the record is the items.
* `ContextFree.State.Limited` - no cell holds more items than it may.

## Main results

* `ContextFree.State.items_prefix_insertAll`, `ContextFree.State.getElem?_insertAll` - items stay
  where they are, and what is new was offered.
* `ContextFree.State.exists_cell_insertAll` - every cell that is offered is filled.
* `ContextFree.State.length_le_of_limited` - a bound on the items by the cells.
-/

namespace ContextFree

/-- What an item recognizes, without how it came about. -/
structure Cell where
  /-- The rule being recognized. -/
  rule : Rule
  /-- The number of symbols before the dot. -/
  dot : Nat
  /-- The position where recognition of the rule began. -/
  start : Nat
deriving DecidableEq

/-- The cell that an item lies in. -/
def Item.cell (item : Item) : Cell := ⟨item.rule, item.dot, item.start⟩

theorem Item.sameCell_iff_cell {a b : Item} : a.sameCell b = true ↔ a.cell = b.cell := by
  rw [Item.sameCell_iff, Item.cell, Item.cell, Cell.mk.injEq]
  tauto

/-- The items in the cell of an item are those whose cell it is. -/
theorem Item.filter_sameCell (item : Item) (row : List Item) :
    row.filter item.sameCell = row.filter (·.cell = item.cell) := by
  refine List.filter_congr fun y _ => Bool.eq_iff_iff.mpr ?_
  rw [decide_eq_true_eq, Item.sameCell_iff_cell, eq_comm]

theorem Item.cell_eq_of_sameCopy {a b : Item} (h : a.sameCopy b = true) : a.cell = b.cell :=
  Item.sameCell_iff_cell.mp (Item.sameCell_iff.mpr (Item.sameCopy_iff.mp h).1)

theorem Retention.copies_pos (retention : Retention) : 0 < retention.copies := by
  cases retention <;> decide

namespace State

variable {s : State} {item : Item} {offered : List Item}

/-! ### What insertion keeps and adds -/

theorem items_prefix_insert (s : State) (item : Item) : s.items <+: (s.insert item).items := by
  rw [items_insert]
  exact List.prefix_append _ _

/-- Items that are there stay where they are. -/
theorem items_prefix_insertAll (s : State) (offered : List Item) :
    s.items <+: (s.insertAll offered).items := by
  induction offered generalizing s with
  | nil => exact List.prefix_refl _
  | cons item rest ih => exact (items_prefix_insert s item).trans (ih (s.insert item))

/-- An item that was not there stands after those that were, and was offered. -/
theorem getElem?_insertAll {k : Nat} {y : Item} (h : (s.insertAll offered).items[k]? = some y) :
    s.items[k]? = some y ∨ s.items.length ≤ k ∧ y ∈ offered := by
  induction offered generalizing s with
  | nil => exact Or.inl h
  | cons item rest ih =>
    rcases ih h with hold | ⟨hk, hy⟩
    · rw [items_insert] at hold
      rcases Nat.lt_or_ge k s.items.length with hlt | hge
      · exact Or.inl (by rwa [List.getElem?_append_left hlt] at hold)
      · rw [List.getElem?_append_right hge] at hold
        refine Or.inr ⟨hge, List.mem_cons.mpr (Or.inl ?_)⟩
        split at hold
        · exact List.mem_singleton.mp (List.mem_of_getElem? hold)
        · simp at hold
    · have hle := (items_prefix_insert s item).length_le
      exact Or.inr ⟨by omega, List.mem_cons_of_mem _ hy⟩

/-! ### Aligned states -/

/-- The record holds exactly the items. -/
def Aligned (s : State) : Prop := s.record = s.items

theorem aligned_empty (retention : Retention) : (State.empty retention).Aligned := rfl

theorem Aligned.insert (h : s.Aligned) (item : Item) : (s.insert item).Aligned := by
  rw [State.insert]
  split
  · exact congrArg (· ++ [item]) h
  · exact h

theorem Aligned.insertAll (h : s.Aligned) (offered : List Item) :
    (s.insertAll offered).Aligned := by
  induction offered generalizing s with
  | nil => exact h
  | cons item rest ih => exact ih (h.insert item)

/-- A record refuses an item only when it holds one in the same cell. -/
theorem exists_cell_of_not_admits {retention : Retention} {record : List Item}
    (h : admits retention record item = false) : ∃ y ∈ record, y.cell = item.cell := by
  rw [admits, Bool.and_eq_false_iff] at h
  rcases h with hfull | hcopy
  · -- a full cell is not empty, as at least one copy is kept
    have hcopies := retention.copies_pos
    have hfull : ¬ (record.filter item.sameCell).length < retention.copies :=
      of_decide_eq_false hfull
    have hpos : 0 < (record.filter item.sameCell).length := by omega
    obtain ⟨y, hy⟩ := List.exists_mem_of_length_pos hpos
    exact ⟨y, (List.mem_filter.mp hy).1, (Item.sameCell_iff_cell.mp (List.mem_filter.mp hy).2).symm⟩
  · obtain ⟨y, hy, hsame⟩ := List.any_eq_true.mp ((Bool.not_eq_false' _).mp hcopy)
    exact ⟨y, hy, (Item.cell_eq_of_sameCopy hsame).symm⟩

theorem exists_cell_insert (h : s.Aligned) (item : Item) :
    ∃ y ∈ (s.insert item).items, y.cell = item.cell := by
  rw [items_insert]
  cases hadmits : admits s.retention s.record item with
  | true => exact ⟨item, by simp, rfl⟩
  | false =>
    obtain ⟨y, hy, hcell⟩ := exists_cell_of_not_admits hadmits
    exact ⟨y, List.mem_append_left _ (h ▸ hy), hcell⟩

/-- **Every cell that is offered is filled.** -/
theorem exists_cell_insertAll (h : s.Aligned) (hitem : item ∈ offered) :
    ∃ y ∈ (s.insertAll offered).items, y.cell = item.cell := by
  induction offered generalizing s with
  | nil => exact absurd hitem List.not_mem_nil
  | cons first rest ih =>
    rcases List.mem_cons.mp hitem with rfl | hitem
    · obtain ⟨y, hy, hcell⟩ := exists_cell_insert h item
      exact ⟨y, (items_prefix_insertAll (s.insert item) rest).subset hy, hcell⟩
    · exact ih (h.insert first) hitem

/-! ### Limited states -/

/-- No cell holds more items than the retention allows. -/
def Limited (s : State) : Prop :=
  ∀ item : Item, (s.items.filter item.sameCell).length ≤ s.retention.copies

theorem limited_empty (retention : Retention) : (State.empty retention).Limited :=
  fun _ => Nat.zero_le _

theorem Limited.insert (haligned : s.Aligned) (h : s.Limited) (item : Item) :
    (s.insert item).Limited := by
  intro other
  rw [items_insert, retention_insert, List.filter_append, List.length_append]
  cases hadmits : admits s.retention s.record item with
  | false => simpa using h other
  | true =>
    by_cases hsame : other.sameCell item = true
    · -- the item joins the cell of `other`, which had room for it
      have hcells : s.items.filter other.sameCell = s.record.filter item.sameCell := by
        rw [haligned, Item.filter_sameCell, Item.filter_sameCell, Item.sameCell_iff_cell.mp hsame]
      rw [admits, Bool.and_eq_true, decide_eq_true_eq] at hadmits
      rw [hcells, if_pos rfl, List.filter_singleton, hsame]
      exact hadmits.1
    · simpa [hsame] using h other

theorem Limited.insertAll (haligned : s.Aligned) (h : s.Limited) (offered : List Item) :
    (s.insertAll offered).Limited := by
  induction offered generalizing s with
  | nil => exact h
  | cons item rest ih => exact ih (haligned.insert item) (Limited.insert haligned h item)

private theorem length_le_mul_aux {copies : Nat} : ∀ (cells : List Cell) (items : List Item),
    (∀ item : Item, (items.filter item.sameCell).length ≤ copies) →
      (∀ item ∈ items, item.cell ∈ cells) → items.length ≤ copies * cells.length
  | [], items, _, hcells => by
    cases items with
    | nil => simp
    | cons item rest => exact absurd (hcells item List.mem_cons_self) List.not_mem_nil
  | cell :: cells, items, hlimit, hcells => by
    -- the items in the first cell are few, and the others lie in the cells after it
    have hinside : (items.filter (·.cell = cell)).length ≤ copies := by
      rcases List.eq_nil_or_concat (items.filter (·.cell = cell)) with hnil | ⟨_, item, hconcat⟩
      · rw [hnil]
        exact Nat.zero_le _
      · have hmem : item ∈ items.filter (·.cell = cell) := by simp [hconcat]
        have hcell : item.cell = cell := by simpa using (List.mem_filter.mp hmem).2
        rw [← hcell, ← Item.filter_sameCell]
        exact hlimit item
    have houtside : (items.filter (¬ ·.cell = cell)).length ≤ copies * cells.length := by
      refine length_le_mul_aux cells _ (fun item => ?_) fun item hitem => ?_
      · refine Nat.le_trans (List.Sublist.length_le ?_) (hlimit item)
        exact List.filter_sublist.filter _
      · have hmem := List.mem_filter.mp hitem
        exact (List.mem_cons.mp (hcells item hmem.1)).resolve_left (by simpa using hmem.2)
    have hsplit := List.length_eq_length_filter_add (l := items) (·.cell = cell)
    simp only [decide_not] at houtside
    rw [List.length_cons, Nat.mul_succ]
    omega

/-- **A state has room for as many items as its cells hold copies.** -/
theorem length_le_of_limited {cells : List Cell} (h : s.Limited)
    (hcells : ∀ item ∈ s.items, item.cell ∈ cells) :
    s.items.length ≤ s.retention.copies * cells.length :=
  length_le_mul_aux cells s.items h hcells

end State

end ContextFree
