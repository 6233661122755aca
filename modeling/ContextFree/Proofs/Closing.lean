import ContextFree.Chart.Fill
import ContextFree.Proofs.Insertion

/-!
# Closing a state

A state is closed by a walk over its items. Every step of the walk inserts what one item offers, so
whatever insertions preserve, the walk preserves, and the items seen on the way stay where they are.
If the walk is allowed as many steps as there are items in the end, it serves each of them: what the
item offered when its turn came lies in a cell of the closed state.

What an item offers depends on the state at its turn only if the item is completed where it began.
Everything else it offers is there for good.

## Main results

* `ContextFree.Rules.mem_offers` - all that one item offers.
* `ContextFree.Rules.walk_invariant` - what a single step keeps, the walk keeps.
* `ContextFree.Rules.exists_turn` - every item has its turn.
-/

namespace ContextFree

/-- An entry of a list is the same entry of a list that goes on after it. -/
theorem getElem?_prefix_mono {α : Type} {a b : List α} (h : a <+: b) {k : Nat} {x : α}
    (hx : a[k]? = some x) : b[k]? = some x := by
  obtain ⟨hk, rfl⟩ := List.getElem?_eq_some_iff.mp hx
  exact List.prefix_iff_getElem?.mp h k hk

namespace Rules

variable {rules : Rules} {n : Nullable} {earlier : List State} {here last : State}
  {bound index : Nat} {item offered : Item}

/-! ### One turn -/

theorem mem_completions {waiting : List Item} {symbol : String} {l : Link} :
    offered ∈ completions waiting symbol l ↔
      ∃ p ∈ waiting, p.next? = some symbol ∧ offered = (p.advance .complete).link l := by
  simp only [completions, List.mem_map, List.mem_filter, beq_iff_eq]
  constructor
  · rintro ⟨p, ⟨hp, hnext⟩, rfl⟩
    exact ⟨p, hp, hnext, rfl⟩
  · rintro ⟨p, hp, hnext, rfl⟩
    exact ⟨p, ⟨hp, hnext⟩, rfl⟩

theorem mem_predictions {symbol : String} {position : Nat} :
    offered ∈ rules.predictions n item symbol position ↔
      (∃ r ∈ rules, r.lhs = symbol ∧ offered = .predicted r position) ∨
        n.contains symbol = true ∧ offered = item.advance .complete := by
  rw [predictions, List.mem_append]
  refine or_congr ?_ ?_
  · simp [and_assoc, eq_comm]
  · split <;> simp_all

/-- **What an item offers.** A completed item advances those that wait for it where it began; an
item before a nonterminal offers the rules of that nonterminal and, if that is nullable, itself. -/
theorem mem_offers : offered ∈ rules.offers n earlier here index item ↔
    (item.next? = none ∧ ∃ p ∈ (earlier[item.start]?.getD here).items,
      p.next? = some item.rule.lhs ∧
        offered = (p.advance .complete).link ⟨earlier.length, index⟩) ∨
    ∃ symbol, item.next? = some symbol ∧ rules.defines symbol = true ∧
      ((∃ r ∈ rules, r.lhs = symbol ∧ offered = .predicted r earlier.length) ∨
        n.contains symbol = true ∧ offered = item.advance .complete) := by
  rw [offers]
  cases hnext : item.next? with
  | none => simp [mem_completions]
  | some symbol =>
    cases hdefines : rules.defines symbol with
    | false => simp [hdefines]
    | true => simp [hdefines, mem_predictions]

/-! ### The walk -/

theorem items_prefix_walk (bound index : Nat) (here : State) :
    here.items <+: (rules.walk n earlier bound index here).items := by
  induction bound generalizing index here with
  | zero => exact List.prefix_refl _
  | succ bound ih =>
    rw [walk]
    split
    · exact List.prefix_refl _
    · exact (State.items_prefix_insertAll here _).trans (ih _ _)

/-- What the turn of a single item keeps, the walk keeps. The turn may use that the items seen so
far are among those of the state in the end. -/
theorem walk_invariant {P : State → Prop}
    (hlast : (rules.walk n earlier bound index here).items <+: last.items)
    (hturn : ∀ (index : Nat) (here : State) (item : Item), here.items <+: last.items →
      here.items[index]? = some item → P here →
      P (here.insertAll (rules.offers n earlier here index item)))
    (h : P here) : P (rules.walk n earlier bound index here) := by
  induction bound generalizing index here with
  | zero => exact h
  | succ bound ih =>
    have hhere : here.items <+: last.items := (items_prefix_walk _ _ here).trans hlast
    rw [walk] at hlast ⊢
    split at hlast
    · exact h
    · next item hitem => exact ih hlast (hturn index here item hhere hitem h)

theorem limited_walk (haligned : here.Aligned) (h : here.Limited) :
    (rules.walk n earlier bound index here).Limited :=
  (walk_invariant (P := fun s => s.Aligned ∧ s.Limited) (List.prefix_refl _)
    (fun _ _ _ _ _ h => ⟨h.1.insertAll _, h.2.insertAll h.1 _⟩) ⟨haligned, h⟩).2

@[simp] theorem retention_walk :
    (rules.walk n earlier bound index here).retention = here.retention :=
  walk_invariant (P := fun s => s.retention = here.retention) (List.prefix_refl _)
    (fun _ _ _ _ _ h => (State.retention_insertAll _ _).trans h) rfl

/-- **Every item has its turn.** If the walk may take as many steps as there are items in the end,
then for each of them there was a state on the way to which its offers were inserted. That state has
whatever holds of the first one and is kept by insertions. -/
theorem exists_turn {P : State → Prop} {k : Nat}
    (hinsert : ∀ (s : State) (offered : List Item), P s → P (s.insertAll offered)) (h : P here)
    (hlast : rules.walk n earlier bound index here = last)
    (hbound : last.items.length ≤ index + bound) (hk : index ≤ k)
    (hitem : last.items[k]? = some item) :
    ∃ turn : State, P turn ∧
      (turn.insertAll (rules.offers n earlier turn k item)).items <+: last.items := by
  have hlt : k < last.items.length := (List.getElem?_eq_some_iff.mp hitem).1
  induction bound generalizing index here with
  | zero => omega
  | succ bound ih =>
    have hprefix : here.items <+: last.items := hlast ▸ items_prefix_walk _ _ here
    rw [walk] at hlast
    split at hlast
    · next hnone =>
      -- the walk stopped here, so no item is left at or after the index
      have hlength : here.items.length ≤ index := List.getElem?_eq_none_iff.mp hnone
      subst hlast
      omega
    · next first hfirst =>
      rcases Nat.eq_or_lt_of_le hk with rfl | hlater
      · have hsame : first = item :=
          Option.some.inj ((getElem?_prefix_mono hprefix hfirst).symm.trans hitem)
        subst hsame
        exact ⟨here, h, hlast ▸ items_prefix_walk _ _ _⟩
      · exact ih (hinsert here _ h) hlast (by omega) hlater

end Rules

end ContextFree
