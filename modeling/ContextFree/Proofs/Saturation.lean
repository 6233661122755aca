import ContextFree.Proofs.Making

/-!
# Charts are saturated

A state has no more items than the walk over it may take steps, since all its items lie in the cells
that the rules have room for. So every item has its turn, and the chart holds whatever its items
call for: the rules of an expected symbol, the step over an expected nullable symbol, the advance of
those that wait for a completed one, and the move over a token.

How many copies a cell keeps does not matter here, since an item is missed only if its cell has one
already. An item completed where it began is left out: those that wait for it may come later. Its
left side is nullable, so they step over it on their own.

## Main definitions

* `ContextFree.Chart.Holds` - some item of a state lies in a cell.

## Main results

* `ContextFree.Rules.length_items_le` - the items of a state fit into its room.
* `ContextFree.Rules.holds_seeded`, `ContextFree.Rules.holds_predicted`,
  `ContextFree.Rules.holds_skipped`, `ContextFree.Rules.holds_completed`,
  `ContextFree.Rules.holds_scanned` - what a chart holds besides.
-/

namespace ContextFree

/-- Some item of the state at a position lies in the cell. -/
def Chart.Holds (c : Chart) (position : Nat) (cell : Cell) : Prop :=
  ∃ s, c.state? position = some s ∧ ∃ x ∈ s.items, x.cell = cell

theorem Chart.holds_iff {c : Chart} {position : Nat} {cell : Cell} :
    c.Holds position cell ↔ ∃ k x, c.item? ⟨position, k⟩ = some x ∧ x.cell = cell := by
  constructor
  · rintro ⟨s, hs, x, hx, hcell⟩
    obtain ⟨k, hk⟩ := List.mem_iff_getElem?.mp hx
    exact ⟨k, x, Chart.item?_eq_some_iff.mpr ⟨s, hs, hk⟩, hcell⟩
  · rintro ⟨k, x, hx, hcell⟩
    obtain ⟨s, hs, hk⟩ := Chart.item?_eq_some_iff.mp hx
    exact ⟨s, hs, x, List.mem_of_getElem? hk, hcell⟩

namespace Rules

variable {rules : Rules} {n : Nullable} {retention : Retention} {start : String}
  {input : List String} {i k : Nat} {s : State} {x : Item}

/-! ### The room of a state -/

/-- The cells that a state has at a position: a rule, a place for the dot in it, and a start at or
before the position. -/
def cells (rules : Rules) (position : Nat) : List Cell :=
  rules.flatMap fun r => (List.range (r.rhs.length + 1)).flatMap fun dot =>
    (List.range (position + 1)).map fun start => ⟨r, dot, start⟩

theorem mem_cells {cell : Cell} {position : Nat} : cell ∈ rules.cells position ↔
    cell.rule ∈ rules ∧ cell.dot ≤ cell.rule.rhs.length ∧ cell.start ≤ position := by
  obtain ⟨r, dot, start⟩ := cell
  simp only [cells, List.mem_flatMap, List.mem_map, List.mem_range, Cell.mk.injEq,
    Nat.lt_succ_iff]
  constructor
  · rintro ⟨r', hr, dot', hdot, start', hstart, rfl, rfl, rfl⟩
    exact ⟨hr, hdot, hstart⟩
  · rintro ⟨hr, hdot, hstart⟩
    exact ⟨r, hr, dot, hdot, start, hstart, rfl, rfl, rfl⟩

theorem length_cells (rules : Rules) (position : Nat) :
    (rules.cells position).length = rules.dots * (position + 1) := by
  induction rules with
  | nil => simp [cells, dots]
  | cons r rest ih =>
    rw [cells] at ih ⊢
    rw [List.flatMap_cons, List.length_append, ih, dots, Nat.add_mul]
    simp

theorem limited_of_state (hs : (rules.chart n retention start input).states[i]? = some s) :
    s.Limited := by
  obtain ⟨offered, rfl⟩ := exists_kernel hs
  exact limited_walk ((State.aligned_empty retention).insertAll offered)
    ((State.limited_empty retention).insertAll (State.aligned_empty retention) offered)

theorem retention_of_state (hs : (rules.chart n retention start input).states[i]? = some s) :
    s.retention = retention := by
  obtain ⟨offered, rfl⟩ := exists_kernel hs
  rw [close, retention_walk, State.retention_insertAll]
  rfl

/-- The items of a state lie in the cells of the rules. -/
theorem cell_mem_cells (hs : (rules.chart n retention start input).states[i]? = some s)
    (hx : x ∈ s.items) : x.cell ∈ rules.cells i := by
  obtain ⟨k, hk⟩ := List.mem_iff_getElem?.mp hx
  have hmade := made_of_item? (Chart.item?_eq_some_iff (l := ⟨i, k⟩).mpr ⟨s, hs, hk⟩)
  exact mem_cells.mpr ⟨hmade.rule_mem, hmade.dot_le, hmade.start_le⟩

/-- **The items of a state fit into its room.** -/
theorem length_items_le (hs : (rules.chart n retention start input).states[i]? = some s) :
    s.items.length ≤ rules.room retention i := by
  have hlength := State.length_le_of_limited (limited_of_state hs) fun x hx => cell_mem_cells hs hx
  rwa [retention_of_state hs, length_cells, ← Nat.mul_assoc] at hlength

/-! ### What a chart holds -/

/-- Every item of a chart has its turn: what it offers is inserted to its state, at a time when that
has whatever holds of empty states and is kept by insertions. -/
theorem exists_turn_of_item? {P : State → Prop} (hempty : P (.empty retention))
    (hinsert : ∀ (s : State) (offered : List Item), P s → P (s.insertAll offered))
    (hs : (rules.chart n retention start input).states[i]? = some s) (hk : s.items[k]? = some x) :
    ∃ turn : State, P turn ∧ (turn.insertAll
      (rules.offers n ((rules.chart n retention start input).states.take i) turn k x)).items <+:
        s.items := by
  have hlength : s.items.length ≤ 0 + rules.room retention i := by
    rw [Nat.zero_add]
    exact length_items_le hs
  obtain ⟨offered, hclosed⟩ := exists_kernel hs
  rw [close, State.retention_insertAll, length_take_of_getElem? hs] at hclosed
  exact exists_turn hinsert (hinsert _ offered hempty) hclosed.symm hlength (Nat.zero_le k) hk

/-- What an item offers when its turn comes lies in a cell of its state. -/
theorem exists_offers_hold (hx : (rules.chart n retention start input).item? ⟨i, k⟩ = some x) :
    ∃ turn : State, ∀ offered ∈
      rules.offers n ((rules.chart n retention start input).states.take i) turn k x,
      (rules.chart n retention start input).Holds i offered.cell := by
  obtain ⟨s, hs, hk⟩ := Chart.item?_eq_some_iff.mp hx
  obtain ⟨turn, haligned, hprefix⟩ := exists_turn_of_item? (P := State.Aligned)
    (State.aligned_empty retention) (fun _ offered h => h.insertAll offered) hs hk
  refine ⟨turn, fun o ho => ?_⟩
  obtain ⟨y, hy, hcell⟩ := State.exists_cell_insertAll haligned ho
  exact ⟨s, hs, y, hprefix.subset hy, hcell⟩

/-- The rules of the start symbol are begun at position zero. -/
theorem holds_seeded {r : Rule} (hr : r ∈ rules) (hlhs : r.lhs = start) :
    (rules.chart n retention start input).Holds 0 ⟨r, 0, 0⟩ := by
  have hmem : Item.predicted r 0 ∈ (rules.of start).map (Item.predicted · 0) :=
    List.mem_map.mpr ⟨r, mem_of.mpr ⟨hr, hlhs⟩, rfl⟩
  obtain ⟨y, hy, hcell⟩ := State.exists_cell_insertAll (State.aligned_empty retention) hmem
  exact ⟨_, chart_first, y, (items_prefix_walk _ _ _).subset hy, hcell⟩

section

variable {r : Rule} {dot origin : Nat} {symbol : String}

/-- The rules of an expected symbol are begun where it is expected. -/
theorem holds_predicted {r' : Rule}
    (h : (rules.chart n retention start input).Holds i ⟨r, dot, origin⟩)
    (hnext : r.rhs[dot]? = some symbol) (hr' : r' ∈ rules) (hlhs : r'.lhs = symbol) :
    (rules.chart n retention start input).Holds i ⟨r', 0, i⟩ := by
  obtain ⟨k, x, hx, hcell⟩ := Chart.holds_iff.mp h
  obtain ⟨rfl, rfl, rfl⟩ := Cell.mk.inj hcell
  obtain ⟨turn, hturn⟩ := exists_offers_hold hx
  obtain ⟨s, hs, -⟩ := Chart.item?_eq_some_iff.mp hx
  exact hturn (.predicted r' i) (mem_offers.mpr (Or.inr ⟨symbol, hnext,
    defines_iff.mpr ⟨r', hr', hlhs⟩, Or.inl ⟨r', hr', hlhs, by rw [length_take_of_getElem? hs]⟩⟩))

/-- An expected nullable symbol is stepped over. -/
theorem holds_skipped (h : (rules.chart n retention start input).Holds i ⟨r, dot, origin⟩)
    (hnext : r.rhs[dot]? = some symbol) (hdefines : rules.defines symbol = true)
    (hnullable : n.contains symbol = true) :
    (rules.chart n retention start input).Holds i ⟨r, dot + 1, origin⟩ := by
  obtain ⟨k, x, hx, hcell⟩ := Chart.holds_iff.mp h
  obtain ⟨rfl, rfl, rfl⟩ := Cell.mk.inj hcell
  obtain ⟨turn, hturn⟩ := exists_offers_hold hx
  exact hturn (x.advance .complete) (mem_offers.mpr (Or.inr
    ⟨symbol, hnext, hdefines, Or.inr ⟨hnullable, rfl⟩⟩))

/-- A symbol that is completed after it began advances those that wait for it. -/
theorem holds_completed {r' : Rule} {dot' origin' : Nat}
    (h : (rules.chart n retention start input).Holds i ⟨r, r.rhs.length, origin⟩)
    (horigin : origin < i)
    (hwaits : (rules.chart n retention start input).Holds origin ⟨r', dot', origin'⟩)
    (hnext : r'.rhs[dot']? = some r.lhs) :
    (rules.chart n retention start input).Holds i ⟨r', dot' + 1, origin'⟩ := by
  obtain ⟨k, x, hx, hcell⟩ := Chart.holds_iff.mp h
  obtain ⟨rfl, hdot, rfl⟩ := Cell.mk.inj hcell
  obtain ⟨s, hs, p, hp, hcell⟩ := hwaits
  obtain ⟨rfl, rfl, rfl⟩ := Cell.mk.inj hcell
  obtain ⟨turn, hturn⟩ := exists_offers_hold hx
  have hnone : x.next? = none := Item.next?_eq_none hdot
  refine hturn _ (mem_offers.mpr (Or.inl ⟨hnone, p, ?_, hnext, rfl⟩))
  rw [List.getElem?_take_of_lt horigin]
  exact (show (rules.chart n retention start input).states[x.start]? = some s from hs) ▸ hp

/-- An item that expects the next token moves over it. -/
theorem holds_scanned (h : (rules.chart n retention start input).Holds i ⟨r, dot, origin⟩)
    (hnext : r.rhs[dot]? = some symbol) (hread : input[i]? = some symbol)
    (hdefines : rules.defines symbol = false) :
    (rules.chart n retention start input).Holds (i + 1) ⟨r, dot + 1, origin⟩ := by
  obtain ⟨s, hs, x, hx, hcell⟩ := h
  obtain ⟨rfl, rfl, rfl⟩ := Cell.mk.inj hcell
  have hmoved : x.advance .scan ∈ rules.scanned s symbol :=
    mem_scanned.mpr ⟨hdefines, x, hx, hnext, rfl⟩
  obtain ⟨s', hs'⟩ := chart_reads hs hread (List.ne_nil_of_mem hmoved)
  obtain ⟨before, token, hbefore, htoken, hclosed⟩ := chart_next hs'
  obtain rfl := Option.some.inj (hs.symm.trans hbefore)
  obtain rfl := Option.some.inj (hread.symm.trans htoken)
  obtain ⟨y, hy, hcell⟩ := State.exists_cell_insertAll (State.aligned_empty retention) hmoved
  refine ⟨s', hs', y, ?_, hcell⟩
  rw [hclosed]
  exact (items_prefix_walk _ _ _).subset hy

end

end Rules

end ContextFree
