import ContextFree.Proofs.Saturation
import Mathlib.Data.Set.Card

/-!
# The copies of a cell

A cell holds items that differ in their provenance, up to the number of copies that the retention
allows, and an item that finds its cell full is dropped. So an item that is offered is kept, or else
its cell is full; and as no copy is kept twice, a full cell has as many provenances as it has room
for.

Dropping items never starves a later cell. What is offered to a cell by one that is full is as many
different provenances, each of which is kept or finds the cell full; either way it is full in the
end.

## Main definitions

* `ContextFree.Chart.copies` - the provenances of the items of a cell.
* `ContextFree.Chart.Full` - the cell has as many of them as the retention allows.

## Main results

* `ContextFree.State.keeps_iff_not_admits` - what is kept, or would find its cell full, is refused.
* `ContextFree.State.keeps_insertAll` - what is offered is kept, or its cell is full.
* `ContextFree.Chart.full_of_injOn` - as many different provenances as a cell has room for fill it.
* `ContextFree.Rules.mem_copies_scanned`, `ContextFree.Rules.mem_copies_completed` - the copies that
  are made from others.
* `ContextFree.Rules.full_scanned`, `ContextFree.Rules.full_completed`,
  `ContextFree.Rules.full_of_full_completed` - the cells that full ones make full.
* `ContextFree.Rules.index_eq_of_copy` - no copy is kept twice.
-/

namespace ContextFree

/-- A list without repetition has as many members as entries. -/
theorem encard_mem_of_nodup {α : Type} [DecidableEq α] {l : List α} (h : l.Nodup) :
    {a | a ∈ l}.encard = l.length := by
  rw [← List.coe_toFinset, Set.encard_coe_eq_coe_finsetCard, List.toFinset_card_of_nodup h]

/-- Items are copies of each other when they lie in one cell and have the same provenance. -/
theorem Item.sameCopy_iff_cell {a b : Item} :
    a.sameCopy b = true ↔ a.cell = b.cell ∧ a.provenance = b.provenance := by
  rw [Item.sameCopy, Bool.and_eq_true, Item.sameCell_iff_cell, beq_iff_eq]

/-! ### The copies in a state -/

namespace State

variable {s s' : State} {item : Item} {offered : List Item} {cell : Cell}

/-- A record admits an item if it has fewer items of its cell than it may have, and none of them has
its provenance. -/
theorem admits_iff {retention : Retention} {record : List Item} :
    admits retention record item = true ↔
      (record.filter (·.cell = item.cell)).length < retention.copies ∧
        ∀ y ∈ record, y.cell = item.cell → y.provenance ≠ item.provenance := by
  rw [admits, Bool.and_eq_true, decide_eq_true_eq, Item.filter_sameCell, Bool.not_eq_true',
    List.any_eq_false]
  refine and_congr_right fun _ => forall₂_congr fun y _ => ?_
  rw [Item.sameCopy_iff_cell, not_and, eq_comm, ne_comm, ne_eq]

/-- No item of the state is a copy of another. -/
def Distinct (s : State) : Prop := (s.items.map fun x => (x.cell, x.provenance)).Nodup

theorem distinct_empty (retention : Retention) : (State.empty retention).Distinct := List.nodup_nil

theorem Distinct.insert (haligned : s.Aligned) (h : s.Distinct) (item : Item) :
    (s.insert item).Distinct := by
  rw [Distinct, items_insert]
  cases hadmits : admits s.retention s.record item with
  | false =>
    rw [if_neg Bool.false_ne_true, List.append_nil]
    exact h
  | true =>
    rw [admits, Bool.and_eq_true, Bool.not_eq_true', List.any_eq_false, haligned] at hadmits
    rw [if_pos rfl, List.map_append, List.nodup_append]
    refine ⟨h, List.nodup_singleton _, ?_⟩
    rintro _ hy _ hitem rfl
    obtain ⟨y, hy, hsame⟩ := List.mem_map.mp hy
    rw [List.mem_singleton.mp hitem, Prod.mk.injEq] at hsame
    exact hadmits.2 y hy (Item.sameCopy_iff_cell.mpr ⟨hsame.1.symm, hsame.2.symm⟩)

theorem Distinct.insertAll (haligned : s.Aligned) (h : s.Distinct) (offered : List Item) :
    (s.insertAll offered).Distinct := by
  induction offered generalizing s with
  | nil => exact h
  | cons item rest ih => exact ih (haligned.insert item) (Distinct.insert haligned h item)

/-- The provenances of the items of a cell. -/
def copies (s : State) (cell : Cell) : Set (List Link) :=
  {links | ∃ y ∈ s.items, y.cell = cell ∧ y.provenance = links}

/-- Where no item is a copy of another, a cell has as many provenances as items. -/
theorem encard_copies (h : s.Distinct) (cell : Cell) :
    (s.copies cell).encard = (s.items.filter (·.cell = cell)).length := by
  have hpairs : ((s.items.filter (·.cell = cell)).map fun x => (x.cell, x.provenance)).Nodup :=
    h.sublist (List.filter_sublist.map _)
  have hnodup : ((s.items.filter (·.cell = cell)).map (·.provenance)).Nodup := by
    rw [List.map_congr_left (g := fun x => (cell, x.provenance)) fun x hx => by
      rw [of_decide_eq_true (List.mem_filter.mp hx).2]] at hpairs
    exact List.Nodup.of_map (Prod.mk cell) (by rwa [List.map_map])
  have hcopies : s.copies cell =
      {links | links ∈ (s.items.filter (·.cell = cell)).map (·.provenance)} := by
    ext links
    simp [copies, and_assoc]
  rw [hcopies, encard_mem_of_nodup hnodup, List.length_map]

/-- The state has a copy of the item, or as many copies of its cell as it may. -/
def Keeps (s : State) (item : Item) : Prop :=
  item.provenance ∈ s.copies item.cell ∨
    (s.retention.copies : ℕ∞) ≤ (s.copies item.cell).encard

theorem Keeps.mono (h : s.Keeps item) (hitems : s.items ⊆ s'.items)
    (hretention : s'.retention = s.retention) : s'.Keeps item := by
  have hsubset : s.copies item.cell ⊆ s'.copies item.cell := by
    rintro _ ⟨y, hy, hcell, rfl⟩
    exact ⟨y, hitems hy, hcell, rfl⟩
  rcases h with hmem | hfull
  · exact Or.inl (hsubset hmem)
  · exact Or.inr (hretention ▸ hfull.trans (Set.encard_le_encard hsubset))

/-- **A state keeps what it refuses**, and refuses what it keeps. -/
theorem keeps_iff_not_admits (haligned : s.Aligned) (h : s.Distinct) (item : Item) :
    s.Keeps item ↔ admits s.retention s.record item = false := by
  have hcopy : item.provenance ∈ s.copies item.cell ↔
      ¬ ∀ y ∈ s.items, y.cell = item.cell → y.provenance ≠ item.provenance := by
    simp [copies]
  have hfull : (s.retention.copies : ℕ∞) ≤ (s.copies item.cell).encard ↔
      ¬ (s.items.filter (·.cell = item.cell)).length < s.retention.copies := by
    rw [encard_copies h, Nat.cast_le, Nat.not_lt]
  rw [Keeps, hcopy, hfull, ← not_and_or, and_comm, ← haligned, ← admits_iff, Bool.not_eq_true]

theorem keeps_insert (haligned : s.Aligned) (h : s.Distinct) (item : Item) :
    (s.insert item).Keeps item := by
  cases hadmits : admits s.retention s.record item with
  | true => exact Or.inl ⟨item, by rw [items_insert, hadmits]; simp, rfl, rfl⟩
  | false =>
    rw [State.insert, hadmits, if_neg Bool.false_ne_true]
    exact (keeps_iff_not_admits haligned h item).mpr hadmits

/-- **What is offered is kept, or its cell is full.** -/
theorem keeps_insertAll (haligned : s.Aligned) (h : s.Distinct) (hitem : item ∈ offered) :
    (s.insertAll offered).Keeps item := by
  induction offered generalizing s with
  | nil => exact absurd hitem List.not_mem_nil
  | cons first rest ih =>
    rcases List.mem_cons.mp hitem with rfl | hitem
    · exact (keeps_insert haligned h item).mono (items_prefix_insertAll _ rest).subset
        (retention_insertAll _ rest)
    · exact ih (haligned.insert first) (Distinct.insert haligned h first) hitem

end State

/-! ### The copies in a chart -/

namespace Chart

variable {c : Chart} {i j : Nat} {cell : Cell}

/-- The provenances of the items of a cell in the state of a position. -/
def copies (c : Chart) (position : Nat) (cell : Cell) : Set (List Link) :=
  {links | ∃ k x, c.item? ⟨position, k⟩ = some x ∧ x.cell = cell ∧ x.provenance = links}

/-- The cell has as many provenances as the retention allows. -/
def Full (c : Chart) (position : Nat) (cell : Cell) : Prop :=
  (c.retention.copies : ℕ∞) ≤ (c.copies position cell).encard

theorem copies_eq {s : State} (hs : c.states[i]? = some s) (cell : Cell) :
    c.copies i cell = s.copies cell := by
  ext links
  constructor
  · rintro ⟨k, x, hx, hcell, rfl⟩
    obtain ⟨s', hs', hk⟩ := item?_eq_some_iff.mp hx
    obtain rfl := Option.some.inj (hs.symm.trans hs')
    exact ⟨x, List.mem_of_getElem? hk, hcell, rfl⟩
  · rintro ⟨x, hx, hcell, rfl⟩
    obtain ⟨k, hk⟩ := List.mem_iff_getElem?.mp hx
    exact ⟨k, x, item?_eq_some_iff.mpr ⟨s, hs, hk⟩, hcell, rfl⟩

theorem holds_of_mem_copies {links : List Link} (h : links ∈ c.copies i cell) : c.Holds i cell := by
  obtain ⟨k, x, hx, hcell, -⟩ := h
  exact holds_iff.mpr ⟨k, x, hx, hcell⟩

theorem Full.holds (h : c.Full i cell) : c.Holds i cell := by
  have hpos : 0 < (c.copies i cell).encard :=
    lt_of_lt_of_le (by exact_mod_cast c.retention.copies_pos) h
  obtain ⟨links, hlinks⟩ := Set.encard_pos.mp hpos
  exact holds_of_mem_copies hlinks

/-- **As many different provenances as a cell has room for fill it**, if each of them is kept unless
the cell is full. -/
theorem full_of_injOn {α : Type} {s : Set α} {f : α → List Link}
    (hs : (c.retention.copies : ℕ∞) ≤ s.encard) (hf : Set.InjOn f s)
    (hkept : ∀ a ∈ s, f a ∈ c.copies i cell ∨ c.Full i cell) : c.Full i cell := by
  by_contra hfull
  have hmaps : Set.MapsTo f s (c.copies i cell) := fun a ha => (hkept a ha).resolve_right hfull
  exact hfull (hs.trans (Set.encard_le_encard_of_injOn hmaps hf))

/-- The places of the items of a cell in the state of a position. -/
def places (c : Chart) (position : Nat) (cell : Cell) : Set Link :=
  {l | l.position = position ∧ ∃ x, c.item? l = some x ∧ x.cell = cell}

/-- There are no fewer places than provenances. -/
theorem encard_copies_le_encard_places (c : Chart) (position : Nat) (cell : Cell) :
    (c.copies position cell).encard ≤ (c.places position cell).encard := by
  have hsubset : c.copies position cell ⊆
      (fun l => ((c.item? l).map (·.provenance)).getD []) '' c.places position cell := by
    rintro _ ⟨k, x, hx, hcell, rfl⟩
    exact ⟨⟨position, k⟩, ⟨rfl, x, hx, hcell⟩, by simp [hx]⟩
  exact (Set.encard_le_encard hsubset).trans (Set.encard_image_le _ _)

end Chart

namespace Rules

variable {rules : Rules} {n : Nullable} {retention : Retention} {start : String}
  {input : List String} {i k : Nat} {s : State} {x : Item}

theorem distinct_of_state (hs : (rules.chart n retention start input).states[i]? = some s) :
    s.Distinct := by
  obtain ⟨offered, rfl⟩ := exists_kernel hs
  exact (walk_invariant (P := fun s => s.Aligned ∧ s.Distinct) (List.prefix_refl _)
    (fun _ _ _ _ _ h => ⟨h.1.insertAll _, h.2.insertAll h.1 _⟩)
    ⟨(State.aligned_empty retention).insertAll offered,
      (State.distinct_empty retention).insertAll (State.aligned_empty retention) offered⟩).2

/-- **No copy is kept twice.** -/
theorem index_eq_of_copy {k' : Nat} {x' : Item}
    (hx : (rules.chart n retention start input).item? ⟨i, k⟩ = some x)
    (hx' : (rules.chart n retention start input).item? ⟨i, k'⟩ = some x')
    (hcell : x.cell = x'.cell) (hprovenance : x.provenance = x'.provenance) : k = k' := by
  obtain ⟨s, hs, hk⟩ := Chart.item?_eq_some_iff.mp hx
  obtain ⟨s', hs', hk'⟩ := Chart.item?_eq_some_iff.mp hx'
  obtain rfl := Option.some.inj (hs.symm.trans hs')
  have hlt : k < (s.items.map fun x => (x.cell, x.provenance)).length := by
    rw [List.length_map]
    exact (List.getElem?_eq_some_iff.mp hk).1
  refine (List.getElem?_inj hlt (distinct_of_state hs)).mp ?_
  rw [List.getElem?_map, List.getElem?_map, hk, hk', Option.map_some, Option.map_some, hcell,
    hprovenance]

/-- The state of a position keeps an item that is inserted to it on the way. -/
private theorem mem_copies_or_full {turn : State} {offered : List Item} {item : Item}
    (hs : (rules.chart n retention start input).states[i]? = some s)
    (haligned : turn.Aligned) (hdistinct : turn.Distinct) (hretention : turn.retention = retention)
    (hkept : (turn.insertAll offered).items <+: s.items) (hitem : item ∈ offered) :
    item.provenance ∈ (rules.chart n retention start input).copies i item.cell ∨
      (rules.chart n retention start input).Full i item.cell := by
  have hkeeps : s.Keeps item := by
    refine (State.keeps_insertAll haligned hdistinct hitem).mono hkept.subset ?_
    rw [State.retention_insertAll, hretention, retention_of_state hs]
  rw [Chart.Full, Chart.copies_eq hs]
  exact hkeeps.imp_right fun hfull => by rwa [retention_of_state hs] at hfull

section

variable {r : Rule} {dot origin : Nat} {symbol : String} {links : List Link}

/-- A copy that expects the next token has a copy with the dot moved over it, or the cell of that is
full. -/
theorem mem_copies_scanned
    (h : links ∈ (rules.chart n retention start input).copies i ⟨r, dot, origin⟩)
    (hnext : r.rhs[dot]? = some symbol) (hread : input[i]? = some symbol)
    (hdefines : rules.defines symbol = false) :
    links ∈ (rules.chart n retention start input).copies (i + 1) ⟨r, dot + 1, origin⟩ ∨
      (rules.chart n retention start input).Full (i + 1) ⟨r, dot + 1, origin⟩ := by
  obtain ⟨k, x, hx, hcell, rfl⟩ := h
  obtain ⟨rfl, rfl, rfl⟩ := Cell.mk.inj hcell
  obtain ⟨s, hs, hk⟩ := Chart.item?_eq_some_iff.mp hx
  have hmoved : x.advance .scan ∈ rules.scanned s symbol :=
    mem_scanned.mpr ⟨hdefines, x, List.mem_of_getElem? hk, hnext, rfl⟩
  obtain ⟨s', hs'⟩ := chart_reads hs hread (List.ne_nil_of_mem hmoved)
  obtain ⟨before, token, hbefore, htoken, hclosed⟩ := chart_next hs'
  obtain rfl := Option.some.inj (hs.symm.trans hbefore)
  obtain rfl := Option.some.inj (hread.symm.trans htoken)
  exact mem_copies_or_full hs' (State.aligned_empty retention) (State.distinct_empty retention) rfl
    (hclosed ▸ items_prefix_walk _ _ _) hmoved

/-- An item that is completed after it began makes a copy of each that waits for it, unless the cell
of that is full. -/
theorem mem_copies_completed
    (hx : (rules.chart n retention start input).item? ⟨i, k⟩ = some x) (hnone : x.next? = none)
    (hlt : x.start < i)
    (h : links ∈ (rules.chart n retention start input).copies x.start ⟨r, dot, origin⟩)
    (hnext : r.rhs[dot]? = some x.rule.lhs) :
    links ++ [⟨i, k⟩] ∈ (rules.chart n retention start input).copies i ⟨r, dot + 1, origin⟩ ∨
      (rules.chart n retention start input).Full i ⟨r, dot + 1, origin⟩ := by
  obtain ⟨m, p, hp, hcell, rfl⟩ := h
  obtain ⟨rfl, rfl, rfl⟩ := Cell.mk.inj hcell
  obtain ⟨s, hs, hk⟩ := Chart.item?_eq_some_iff.mp hx
  obtain ⟨s', hs', hm⟩ := Chart.item?_eq_some_iff.mp hp
  have hs' : (rules.chart n retention start input).states[x.start]? = some s' := hs'
  obtain ⟨turn, ⟨haligned, hdistinct, hretention⟩, hkept⟩ := exists_turn_of_item?
    (P := fun s => s.Aligned ∧ s.Distinct ∧ s.retention = retention)
    ⟨State.aligned_empty retention, State.distinct_empty retention, rfl⟩
    (fun s offered h => ⟨h.1.insertAll offered, h.2.1.insertAll h.1 offered,
      (State.retention_insertAll s offered).trans h.2.2⟩) hs hk
  have hlength := length_take_of_getElem? hs
  have hoffered : (p.advance .complete).link ⟨i, k⟩ ∈
      rules.offers n ((rules.chart n retention start input).states.take i) turn k x := by
    refine mem_offers.mpr (Or.inl ⟨hnone, p, ?_, hnext, by rw [hlength]⟩)
    rw [List.getElem?_take_of_lt hlt, hs']
    exact List.mem_of_getElem? hm
  exact mem_copies_or_full hs haligned hdistinct hretention hkept hoffered

/-! ### Full cells make full cells -/

/-- If the cell of items that expect the next token is full, so is that of the moved ones. -/
theorem full_scanned (h : (rules.chart n retention start input).Full i ⟨r, dot, origin⟩)
    (hnext : r.rhs[dot]? = some symbol) (hread : input[i]? = some symbol)
    (hdefines : rules.defines symbol = false) :
    (rules.chart n retention start input).Full (i + 1) ⟨r, dot + 1, origin⟩ :=
  Chart.full_of_injOn h (Set.injOn_id _) fun _ hlinks =>
    mem_copies_scanned hlinks hnext hread hdefines

/-- If the cell of items that wait for one that is completed is full, so is that of the advanced
ones. -/
theorem full_completed
    (hx : (rules.chart n retention start input).item? ⟨i, k⟩ = some x) (hnone : x.next? = none)
    (hlt : x.start < i)
    (h : (rules.chart n retention start input).Full x.start ⟨r, dot, origin⟩)
    (hnext : r.rhs[dot]? = some x.rule.lhs) :
    (rules.chart n retention start input).Full i ⟨r, dot + 1, origin⟩ :=
  Chart.full_of_injOn h (List.append_left_injective [_]).injOn fun _ hlinks =>
    mem_copies_completed hx hnone hlt hlinks hnext

/-- If the cell of a completed rule is full, so is that of the items advanced over it: a copy that
waits makes a different one with each of the completed items. -/
theorem full_of_full_completed {r' : Rule} {origin' : Nat}
    (h : (rules.chart n retention start input).Full i ⟨r', r'.rhs.length, origin'⟩)
    (hlt : origin' < i)
    (hlinks : links ∈ (rules.chart n retention start input).copies origin' ⟨r, dot, origin⟩)
    (hnext : r.rhs[dot]? = some r'.lhs) :
    (rules.chart n retention start input).Full i ⟨r, dot + 1, origin⟩ := by
  have hinj : Function.Injective fun l : Link => links ++ [l] := fun _ _ heq =>
    List.singleton_injective (List.append_cancel_left heq)
  refine Chart.full_of_injOn (h.trans (Chart.encard_copies_le_encard_places _ _ _)) hinj.injOn ?_
  rintro ⟨_, k⟩ ⟨rfl, x, hx, hcell⟩
  obtain ⟨rfl, hdot, rfl⟩ := Cell.mk.inj hcell
  have hend : x.next? = none := Item.next?_eq_none hdot
  exact mem_copies_completed hx hend hlt hlinks hnext

end

end Rules

end ContextFree
