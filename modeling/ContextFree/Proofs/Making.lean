import ContextFree.Proofs.Filling

/-!
# How the items of a chart are made

Five things make an item: seeding, prediction, stepping over a nullable symbol, completion and
scanning. The relation `Made` lists them, each with the items it was made from and with what was
checked on the way. Every item of a filled chart was made so, out of items with links before its
own; what holds of the items of a chart is therefore proved by induction on how they are made, and
the walk, the insertions and the positions are not looked at again.

## Main definitions

* `ContextFree.Rules.Made` - how an item comes to its place.

## Main results

* `ContextFree.Rules.made_of_item?` - every item of a filled chart is made.
* `ContextFree.Rules.Made.rule_mem`, `ContextFree.Rules.Made.dot_le`,
  `ContextFree.Rules.Made.start_le` - items stay within the rules and the input.
-/

namespace ContextFree

namespace Item

theorem dot_lt_of_next? {item : Item} {symbol : String} (h : item.next? = some symbol) :
    item.dot < item.rule.rhs.length :=
  (List.getElem?_eq_some_iff.mp h).1

/-- The symbols before the dot, once it has moved over the next one. -/
theorem take_succ_of_next? {item : Item} {symbol : String} (h : item.next? = some symbol) :
    item.rule.rhs.take (item.dot + 1) = item.rule.rhs.take item.dot ++ [symbol] := by
  rw [List.take_add_one, show item.rule.rhs[item.dot]? = some symbol from h]
  rfl

end Item

namespace Rules

variable {rules : Rules} {n : Nullable} {retention : Retention} {start : String}
  {input : List String} {c : Chart} {l : Link} {x : Item}

/-- How an item of a chart comes to its place, out of items that were made before it. -/
inductive Made (rules : Rules) (n : Nullable) (start : String) (input : List String) (c : Chart) :
    Link → Item → Prop where
  /-- A rule of the start symbol is begun at position zero. -/
  | seeded {k : Nat} {r : Rule} : r ∈ rules → r.lhs = start →
      Made rules n start input c ⟨0, k⟩ (.predicted r 0)
  /-- A rule of the symbol that an item expects is begun where the item is. -/
  | predicted {i j k : Nat} {x : Item} {symbol : String} {r : Rule} :
      Made rules n start input c ⟨i, j⟩ x → j < k → x.next? = some symbol →
      r ∈ rules → r.lhs = symbol →
      Made rules n start input c ⟨i, k⟩ (.predicted r i)
  /-- An item steps over the nullable symbol that it expects. -/
  | skipped {i j k : Nat} {x : Item} {symbol : String} :
      Made rules n start input c ⟨i, j⟩ x → j < k → x.next? = some symbol →
      n.contains symbol = true →
      Made rules n start input c ⟨i, k⟩ (x.advance .complete)
  /-- An item moves over a symbol that was completed from where it waits for it. -/
  | completed {l : Link} {i j k : Nat} {p x : Item} :
      Made rules n start input c l p → l.before ⟨i, k⟩ → p.next? = some x.rule.lhs →
      Made rules n start input c ⟨i, j⟩ x → j < k → x.next? = none → l.position = x.start →
      c.item? ⟨i, j⟩ = some x →
      Made rules n start input c ⟨i, k⟩ ((p.advance .complete).link ⟨i, j⟩)
  /-- An item moves over the token that it expects. -/
  | scanned {i j k : Nat} {x : Item} {token : String} :
      Made rules n start input c ⟨i, j⟩ x → x.next? = some token → input[i]? = some token →
      rules.defines token = false →
      Made rules n start input c ⟨i + 1, k⟩ (x.advance .scan)

/-! ### Items stay within the rules and the input -/

namespace Made

theorem rule_mem (h : rules.Made n start input c l x) : x.rule ∈ rules := by
  induction h with
  | seeded hr _ => exact hr
  | predicted _ _ _ hr _ _ => exact hr
  | skipped _ _ _ _ ih => exact ih
  | completed _ _ _ _ _ _ _ _ ihp _ => exact ihp
  | scanned _ _ _ _ ih => exact ih

theorem dot_le (h : rules.Made n start input c l x) : x.dot ≤ x.rule.rhs.length := by
  induction h with
  | seeded => exact Nat.zero_le _
  | predicted => exact Nat.zero_le _
  | skipped _ _ hnext _ _ => exact Item.dot_lt_of_next? hnext
  | completed _ _ hnext _ _ _ _ _ _ _ => exact Item.dot_lt_of_next? hnext
  | scanned _ hnext _ _ _ => exact Item.dot_lt_of_next? hnext

theorem start_le (h : rules.Made n start input c l x) : x.start ≤ l.position := by
  induction h with
  | seeded => exact Nat.le_refl 0
  | predicted => exact Nat.le_refl _
  | skipped _ _ _ _ ih => exact ih
  | @completed _ i _ _ p x _ _ _ _ _ _ hposition _ ihp ihx =>
    have hx : x.start ≤ i := ihx
    show p.start ≤ i
    omega
  | @scanned i _ _ x _ _ _ _ _ ih =>
    have hx : x.start ≤ i := ih
    show x.start ≤ i + 1
    omega

/-- The dot of a completed item stands at the end of its rule. -/
theorem cell_of_completed (h : rules.Made n start input c l x) (hnone : x.next? = none) :
    x.cell = ⟨x.rule, x.rule.rhs.length, x.start⟩ := by
  rw [Item.cell, Nat.le_antisymm h.dot_le (List.getElem?_eq_none_iff.mp hnone)]

end Made

/-! ### Every item is made -/

theorem mem_scanned {here : State} {token : String} :
    x ∈ rules.scanned here token ↔ rules.defines token = false ∧
      ∃ y ∈ here.items, y.next? = some token ∧ x = y.advance .scan := by
  rw [scanned]
  cases rules.defines token with
  | true => simp
  | false =>
    simp only [Bool.false_eq_true, if_false, List.mem_map, List.mem_filter, beq_iff_eq, true_and]
    constructor
    · rintro ⟨y, ⟨hy, hnext⟩, rfl⟩
      exact ⟨y, hy, hnext, rfl⟩
    · rintro ⟨y, hy, hnext, rfl⟩
      exact ⟨y, ⟨hy, hnext⟩, rfl⟩

theorem mem_of_getElem?_insertAll_empty {offered : List Item} {k : Nat}
    (h : ((State.empty retention).insertAll offered).items[k]? = some x) : x ∈ offered := by
  rcases State.getElem?_insertAll h with hnone | ⟨-, hx⟩
  · simp [State.empty] at hnone
  · exact hx

/-- If the items before a state are made, and those of its kernel, then all its items are. -/
private theorem made_close {i : Nat} {kernel : State}
    (hclosed : c.states[i]? = some (rules.close n (c.states.take i) kernel))
    (hbefore : ∀ o < i, ∀ m p, c.item? ⟨o, m⟩ = some p → rules.Made n start input c ⟨o, m⟩ p)
    (hkernel : ∀ k x, kernel.items[k]? = some x → rules.Made n start input c ⟨i, k⟩ x) :
    ∀ k x, (rules.close n (c.states.take i) kernel).items[k]? = some x →
      rules.Made n start input c ⟨i, k⟩ x := by
  have hlength : (c.states.take i).length = i := length_take_of_getElem? hclosed
  refine walk_invariant
    (P := fun s => ∀ k x, s.items[k]? = some x → rules.Made n start input c ⟨i, k⟩ x)
    (List.prefix_refl _) (fun j here item hlast hitem hmade k x hx => ?_) hkernel
  rcases State.getElem?_insertAll hx with hold | ⟨hk, hoffered⟩
  · exact hmade k x hold
  have hj : j < here.items.length := (List.getElem?_eq_some_iff.mp hitem).1
  have hjk : j < k := by omega
  have hfrom : rules.Made n start input c ⟨i, j⟩ item := hmade j item hitem
  have hat : c.item? ⟨i, j⟩ = some item :=
    Chart.item?_eq_some_iff.mpr ⟨_, hclosed, getElem?_prefix_mono hlast hitem⟩
  rcases mem_offers.mp hoffered with ⟨hnone, p, hp, hwaits, rfl⟩ | ⟨symbol, hnext, -, hpredicted⟩
  · rw [hlength]
    -- the item that waits is in an earlier state, or else in this one, among those already there
    have hp : ∃ l, l.position = item.start ∧ l.before ⟨i, k⟩ ∧ rules.Made n start input c l p := by
      rcases Nat.lt_or_eq_of_le hfrom.start_le with hlt | heq
      · have hlt : item.start < i := hlt
        rw [List.getElem?_take_of_lt hlt] at hp
        cases hs : c.states[item.start]? with
        | none =>
          have := List.getElem?_eq_none_iff.mp hs
          have := (List.getElem?_eq_some_iff.mp hclosed).1
          omega
        | some s =>
          rw [hs] at hp
          obtain ⟨m, hm⟩ := List.mem_iff_getElem?.mp hp
          have hpat : c.item? ⟨item.start, m⟩ = some p :=
            Chart.item?_eq_some_iff.mpr ⟨s, hs, hm⟩
          exact ⟨⟨item.start, m⟩, rfl, Or.inl hlt, hbefore item.start hlt m p hpat⟩
      · have heq : item.start = i := heq
        rw [List.getElem?_eq_none_iff.mpr (by omega)] at hp
        obtain ⟨m, hm⟩ := List.mem_iff_getElem?.mp hp
        have hm_lt : m < here.items.length := (List.getElem?_eq_some_iff.mp hm).1
        have hmk : m < k := by omega
        exact ⟨⟨i, m⟩, heq.symm, Or.inr ⟨rfl, hmk⟩, hmade m p hm⟩
    obtain ⟨l, hposition, hbefore, hmade⟩ := hp
    exact .completed hmade hbefore hwaits hfrom hjk hnone hposition hat
  · rcases hpredicted with ⟨r, hr, hlhs, rfl⟩ | ⟨hnullable, rfl⟩
    · rw [hlength]
      exact .predicted hfrom hjk hnext hr hlhs
    · exact .skipped hfrom hjk hnext hnullable

/-- **Every item of a filled chart is made.** -/
theorem made_of_item? (h : (rules.chart n retention start input).item? l = some x) :
    rules.Made n start input (rules.chart n retention start input) l x := by
  obtain ⟨i, j⟩ := l
  -- induction on the position: a state is closed after all the states before it
  induction i using Nat.strongRecOn generalizing j x with
  | _ i ih =>
    obtain ⟨s, hs, hx⟩ := Chart.item?_eq_some_iff.mp h
    have hkernel : ∃ kernel,
        s = rules.close n ((rules.chart n retention start input).states.take i) kernel ∧
          ∀ k x, kernel.items[k]? = some x →
            rules.Made n start input (rules.chart n retention start input) ⟨i, k⟩ x := by
      cases i with
      | zero =>
        refine ⟨_, Option.some.inj (hs.symm.trans chart_first), fun k x hx => ?_⟩
        obtain ⟨r, hr, rfl⟩ := List.mem_map.mp (mem_of_getElem?_insertAll_empty hx)
        exact .seeded (mem_of.mp hr).1 (mem_of.mp hr).2
      | succ i =>
        obtain ⟨before, token, hat, htoken, rfl⟩ := chart_next hs
        refine ⟨_, rfl, fun k x hx => ?_⟩
        obtain ⟨hterminal, y, hy, hnext, rfl⟩ :=
          mem_scanned.mp (mem_of_getElem?_insertAll_empty hx)
        obtain ⟨m, hm⟩ := List.mem_iff_getElem?.mp hy
        exact .scanned (ih i (Nat.lt_succ_self i) m (Chart.item?_eq_some_iff.mpr ⟨before, hat, hm⟩))
          hnext htoken hterminal
    obtain ⟨kernel, rfl, hkernel⟩ := hkernel
    exact made_close hs (fun o ho m p hp => ih o ho m hp) hkernel j x hx

end Rules

end ContextFree
