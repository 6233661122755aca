import ContextFree.Proofs.Copies
import ContextFree.Proofs.Locality
import Mathlib.Logic.Function.Basic

/-!
# Judging items late

Items come to a state in two ways. An insertion judges an item at once, by the record. A push lets
it in unjudged, and when the state is sifted all items are judged anew. In between the record does
not know what was pushed, so an insertion may let in what there is no room for, and the state may
hold an item twice or too many items of a cell.

Once the state is sifted nothing of this is left. An item that was let in too easily is judged
again. An item that was refused had to be refused: the items on the record are among those that were
offered, and each of these is kept or its cell is full, so where they leave no room there is none.
To sift a state after any operations is therefore to insert all that was offered, item by item, into
an empty one. What that leaves can be said without any state: it is what an ideal filter keeps.

The record is a list of items here, but only the provenances under each cell are looked up in it. A
ledger has just these, and to judge by a ledger and to keep it is the same.

## Main definitions

* `ContextFree.State.Operation`, `ContextFree.State.perform` - operations, one after the other.
* `ContextFree.State.Ideal` - which of the items offered an ideal filter keeps.
* `ContextFree.Ledger`, `ContextFree.State.Operation.post` - operations on items and a ledger.

## Main results

* `ContextFree.State.made_eq` - operations before a sifting come to insertions.
* `ContextFree.State.posted_made` - a ledger holds what the record holds.
* `ContextFree.Rules.judged_steps?` - no pushed item is left unjudged while a chart is filled.
* `ContextFree.State.perform_ideal` - what operations leave is what an ideal filter keeps.
-/

namespace ContextFree

namespace State

variable {s t u : State} {x : Item} {offers : List Item} {retention : Retention}

/-! ### Settled states -/

/-- No item is unjudged: the record is up to date, and the items are those that it would admit. -/
structure Settled (s : State) : Prop where
  /-- The record is the items. -/
  aligned : s.Aligned
  /-- Judging the items anew keeps all of them. -/
  sifted : s.Sifted

theorem settled_empty (retention : Retention) : (empty retention).Settled :=
  ⟨aligned_empty retention, sifted_empty retention⟩

theorem Settled.insertAll (h : s.Settled) (offers : List Item) : (s.insertAll offers).Settled :=
  ⟨h.aligned.insertAll offers, h.sifted.insertAll h.aligned offers⟩

theorem settled_dedup (s : State) : s.dedup.Settled := by
  rw [dedup_eq_insertAll]
  exact (settled_empty _).insertAll s.items

/-- **Sifting a settled state changes nothing.** -/
theorem Settled.dedup_eq (h : s.Settled) : s.dedup = s :=
  Sifted.dedup_eq h.aligned h.sifted

/-! ### Refusals -/

/-- A state that keeps the items of another keeps what the other keeps. -/
theorem Keeps.of_forall (h : u.Keeps x) (hretention : t.retention = u.retention)
    (hall : ∀ y ∈ u.items, t.Keeps y) : t.Keeps x := by
  rcases h with ⟨y, hy, hcell, hprovenance⟩ | hfull
  · -- it has a copy of an item that is kept
    have hy := hall y hy
    rwa [Keeps, hcell, hprovenance] at hy
  · by_cases hsubset : u.copies x.cell ⊆ t.copies x.cell
    · exact Or.inr (hretention ▸ hfull.trans (Set.encard_le_encard hsubset))
    · -- an item of the other that is missing has found its cell full
      obtain ⟨_, ⟨y, hy, hcell, rfl⟩, hmissing⟩ := Set.not_subset.mp hsubset
      rw [← hcell] at hmissing
      have hfull := (hall y hy).resolve_left hmissing
      rw [hcell] at hfull
      exact Or.inr hfull

/-- The state whose items are those on the record. -/
def recorded (s : State) : State := { s with items := s.record }

theorem aligned_recorded (s : State) : s.recorded.Aligned := rfl

/-- The state has come from these offers: to sift it is to insert them into an empty state. Its
record has some of them, and none twice; items that were pushed are not on it. -/
structure StemsFrom (retention : Retention) (offers : List Item) (s : State) : Prop where
  /-- Sifting comes to insertions. -/
  dedup_eq : s.dedup = (empty retention).insertAll offers
  /-- What is on the record was offered. -/
  record_subset : s.record ⊆ offers
  /-- The record has no two copies. -/
  distinct : s.recorded.Distinct

namespace StemsFrom

theorem empty (retention : Retention) : StemsFrom retention [] (empty retention) where
  dedup_eq := rfl
  record_subset := List.nil_subset _
  distinct := distinct_empty retention

theorem distinct_dedup (h : StemsFrom retention offers s) : s.dedup.Distinct := by
  rw [h.dedup_eq]
  exact (distinct_empty retention).insertAll (aligned_empty retention) offers

/-- **What the record refuses, the sifted state refuses.** -/
theorem insert_dedup_eq (h : StemsFrom retention offers s)
    (hrefused : admits s.retention s.record x = false) : s.dedup.insert x = s.dedup := by
  have hkeeps : s.recorded.Keeps x :=
    (keeps_iff_not_admits (aligned_recorded s) h.distinct x).mpr hrefused
  have hall : ∀ y ∈ s.recorded.items, s.dedup.Keeps y := by
    intro y hy
    rw [h.dedup_eq]
    exact keeps_insertAll (aligned_empty retention) (distinct_empty retention) (h.record_subset hy)
  have hrefuses : admits s.dedup.retention s.dedup.record x = false :=
    (keeps_iff_not_admits (settled_dedup s).aligned h.distinct_dedup x).mp
      (hkeeps.of_forall rfl hall)
  rw [State.insert, hrefuses, if_neg Bool.false_ne_true]

/-- An insertion is judged in the end as by the sifted state, whatever the record says. -/
theorem dedup_insert (h : StemsFrom retention offers s) (x : Item) :
    (s.insert x).dedup = s.dedup.insert x := by
  cases hadmits : admits s.retention s.record x with
  | true => exact dedup_insert_of_admits hadmits
  | false =>
    rw [h.insert_dedup_eq hadmits, State.insert, hadmits, if_neg Bool.false_ne_true]

theorem insert (h : StemsFrom retention offers s) (x : Item) :
    StemsFrom retention (offers ++ [x]) (s.insert x) where
  dedup_eq := by
    rw [h.dedup_insert, h.dedup_eq, insertAll_append]
    rfl
  record_subset := by
    have hsubset := List.subset_append_of_subset_left [x] h.record_subset
    rw [State.insert]
    split
    · exact List.append_subset.mpr ⟨hsubset, List.subset_append_right offers [x]⟩
    · exact hsubset
  distinct := by
    have hinsert : (s.insert x).recorded = s.recorded.insert x := by
      cases hadmits : admits s.retention s.record x <;> simp [State.insert, recorded, hadmits]
    rw [hinsert]
    exact h.distinct.insert (aligned_recorded s) x

theorem push (h : StemsFrom retention offers s) (x : Item) :
    StemsFrom retention (offers ++ [x]) (s.push x) where
  dedup_eq := by
    rw [insertAll_append, ← h.dedup_eq]
    exact dedup_pushAll_eq s [x]
  record_subset := List.subset_append_of_subset_left [x] h.record_subset
  distinct := h.distinct

theorem dedup (h : StemsFrom retention offers s) : StemsFrom retention offers s.dedup where
  dedup_eq := (settled_dedup s).dedup_eq.trans h.dedup_eq
  record_subset := by
    intro y hy
    rw [h.dedup_eq, (aligned_empty retention).insertAll offers] at hy
    exact (mem_of_mem_insertAll hy).resolve_left List.not_mem_nil
  distinct := h.distinct_dedup

end StemsFrom

/-! ### Operations -/

/-- What may be done to a state. -/
inductive Operation where
  /-- Append an item if the record admits it. -/
  | insert (item : Item)
  /-- Append an item unjudged. -/
  | push (item : Item)
  /-- Judge all items anew. -/
  | dedup

/-- The item that an operation offers to the state. -/
def Operation.item? : Operation → Option Item
  | insert item => some item
  | push item => some item
  | dedup => none

/-- The state after an operation. -/
def Operation.run (s : State) : Operation → State
  | insert item => s.insert item
  | push item => s.push item
  | dedup => s.dedup

/-- The state after some operations. -/
def perform (s : State) (ops : List Operation) : State := ops.foldl Operation.run s

/-- The items that some operations offer, in order. -/
def offered (ops : List Operation) : List Item := ops.filterMap Operation.item?

/-- **An operation keeps what is known of the offers.** -/
theorem StemsFrom.run (h : StemsFrom retention offers s) (op : Operation) :
    StemsFrom retention (offers ++ offered [op]) (op.run s) := by
  cases op with
  | insert item => exact h.insert item
  | push item => exact h.push item
  | dedup => exact (List.append_nil offers).symm ▸ h.dedup

theorem StemsFrom.perform (h : StemsFrom retention offers s) (ops : List Operation) :
    StemsFrom retention (offers ++ offered ops) (s.perform ops) := by
  induction ops generalizing offers s with
  | nil => exact (List.append_nil offers).symm ▸ h
  | cons op rest ih =>
    have hoffered : offers ++ offered (op :: rest) = (offers ++ offered [op]) ++ offered rest := by
      rw [List.append_assoc, offered, offered, offered, ← List.filterMap_append]
      rfl
    rw [hoffered]
    exact ih (h.run op)

theorem perform_append (s : State) (front back : List Operation) :
    s.perform (front ++ back) = (s.perform front).perform back :=
  List.foldl_append

theorem perform_insert (s : State) (offers : List Item) :
    s.perform (offers.map .insert) = s.insertAll offers :=
  List.foldl_map

theorem perform_push (s : State) (offers : List Item) :
    s.perform (offers.map .push) = s.pushAll offers :=
  List.foldl_map

/-- The state that some operations and a sifting at the end make of an empty one. -/
def made (retention : Retention) (ops : List Operation) : State :=
  (empty retention).perform (ops ++ [.dedup])

/-- **Operations before a sifting come to insertions.** -/
theorem made_eq (retention : Retention) (ops : List Operation) :
    made retention ops = (empty retention).insertAll (offered ops) := by
  rw [made, perform_append]
  exact ((StemsFrom.empty retention).perform ops).dedup_eq

/-- An insertion takes no notice of what was pushed: the item is there twice until it is sifted. -/
example :
    (((empty .loose).perform
        [.push (.predicted ⟨"S", []⟩ 0), .insert (.predicted ⟨"S", []⟩ 0)]).size,
      (made .loose [.push (.predicted ⟨"S", []⟩ 0), .insert (.predicted ⟨"S", []⟩ 0)]).size) =
      (2, 1) := by
  decide

theorem settled_made (retention : Retention) (ops : List Operation) :
    (made retention ops).Settled := by
  rw [made_eq]
  exact (settled_empty retention).insertAll (offered ops)

/-! ### The ideal filter -/

/-- The items at the first so many places of a row that stand at a place that is kept. -/
def picked (offers : List Item) (keep : Nat → Bool) (count : Nat) : List Item :=
  ((offers.take count).zipIdx.filter fun entry => keep entry.2).map (·.1)

/-- The ideal filter keeps an item if it has kept fewer items of its cell before, and none of these
has its provenance. -/
def Ideal (copies : Nat) (offers : List Item) (keep : Nat → Bool) : Prop :=
  ∀ k x, offers[k]? = some x →
    (keep k = true ↔
      ((picked offers keep k).filter (·.cell = x.cell)).length < copies ∧
        ∀ y ∈ picked offers keep k, y.cell = x.cell → y.provenance ≠ x.provenance)

variable {keep : Nat → Bool} {k : Nat}

theorem picked_succ (hx : offers[k]? = some x) :
    picked offers keep (k + 1) = picked offers keep k ++ if keep k then [x] else [] := by
  have hlength : (offers.take k).length = k :=
    List.length_take_of_le (List.getElem?_eq_some_iff.mp hx).1.le
  rw [picked, List.take_add_one, hx, Option.toList_some, List.zipIdx_append, List.filter_append,
    List.map_append, hlength, Nat.zero_add]
  cases hkeep : keep k <;> simp [picked, hkeep]

theorem insertAll_take_succ (hx : offers[k]? = some x) :
    ((empty retention).insertAll (offers.take (k + 1))).items =
      ((empty retention).insertAll (offers.take k)).items ++
        if admits retention ((empty retention).insertAll (offers.take k)).items x then [x]
        else [] := by
  have haligned := (aligned_empty retention).insertAll (offers.take k)
  rw [List.take_add_one, hx, Option.toList_some, insertAll_append, insertAll_cons, insertAll_nil,
    items_insert, retention_insertAll, haligned]
  rfl

/-- A filter that keeps what the items kept before it admit keeps what insertions leave. -/
theorem picked_eq_insertAll
    (hkeep : ∀ k x, offers[k]? = some x →
      picked offers keep k = ((empty retention).insertAll (offers.take k)).items →
        keep k = admits retention (picked offers keep k) x)
    (hk : k ≤ offers.length) :
    picked offers keep k = ((empty retention).insertAll (offers.take k)).items := by
  induction k with
  | zero => rfl
  | succ k ih =>
    have hx : offers[k]? = some offers[k] := List.getElem?_eq_getElem hk
    have hfront := ih (Nat.le_of_succ_le hk)
    rw [picked_succ hx, insertAll_take_succ hx, hkeep k _ hx hfront, hfront]

theorem Ideal.picked_eq (h : Ideal retention.copies offers keep) :
    picked offers keep offers.length = ((empty retention).insertAll offers).items := by
  have hkeep : ∀ k x, offers[k]? = some x →
      picked offers keep k = ((empty retention).insertAll (offers.take k)).items →
        keep k = admits retention (picked offers keep k) x :=
    fun k x hx _ => Bool.eq_iff_iff.mpr ((h k x hx).trans admits_iff.symm)
  have hall := picked_eq_insertAll hkeep (Nat.le_refl _)
  rwa [List.take_length] at hall

/-- The item at a place is admitted by what insertions have left of the items before it. -/
def admittedAt (retention : Retention) (offers : List Item) (k : Nat) : Bool :=
  offers[k]?.any (admits retention ((empty retention).insertAll (offers.take k)).items)

/-- **Insertions are an ideal filter.** -/
theorem ideal_admittedAt (retention : Retention) (offers : List Item) :
    Ideal retention.copies offers (admittedAt retention offers) := by
  have hkeep : ∀ k x, offers[k]? = some x →
      picked offers (admittedAt retention offers) k =
          ((empty retention).insertAll (offers.take k)).items →
        admittedAt retention offers k =
          admits retention (picked offers (admittedAt retention offers) k) x := by
    intro k x hx hbefore
    rw [hbefore, admittedAt, hx, Option.any_some]
  intro k x hx
  have hk : k ≤ offers.length := (List.getElem?_eq_some_iff.mp hx).1.le
  rw [hkeep k x hx (picked_eq_insertAll hkeep hk), admits_iff]

end State

/-! ### Ledgers -/

/-- The provenances of the items that were admitted, by cell; a cell without any has no entry. -/
abbrev Ledger := Cell → Option (List (List Link))

namespace Ledger

variable {retention : Retention} {row : List Item} {x : Item} {cell : Cell}

/-- The ledger without entries. -/
def blank : Ledger := fun _ => none

/-- The ledger of a row of items. -/
def ofItems (row : List Item) : Ledger := fun cell =>
  let copies := (row.filter (·.cell = cell)).map (·.provenance)
  if copies = [] then none else some copies

/-- Judge an item by the entry of its cell, which is made if there is none. The item is admitted if
the entry has room and lacks its provenance, and this is then entered. -/
def judge (retention : Retention) (ledger : Ledger) (item : Item) : Bool × Ledger :=
  let copies := (ledger item.cell).getD []
  if retention.copies ≤ copies.length ∨ item.provenance ∈ copies then
    (false, Function.update ledger item.cell (some copies))
  else (true, Function.update ledger item.cell (some (copies ++ [item.provenance])))

theorem getD_ofItems (row : List Item) (cell : Cell) :
    (ofItems row cell).getD [] = (row.filter (·.cell = cell)).map (·.provenance) := by
  rw [ofItems]
  split
  · next hnil => exact hnil.symm
  · rfl

theorem ofItems_concat (row : List Item) (x : Item) :
    ofItems (row ++ [x]) =
      Function.update (ofItems row) x.cell
        (some ((ofItems row x.cell).getD [] ++ [x.provenance])) := by
  funext cell
  by_cases hcell : cell = x.cell
  · subst hcell
    rw [Function.update_self, getD_ofItems]
    simp [ofItems]
  · rw [Function.update_of_ne hcell]
    simp [ofItems, Ne.symm hcell]

/-- **To judge by a ledger is to judge by the record**, and the ledger stays that of the record. -/
theorem judge_ofItems (retention : Retention) (row : List Item) (x : Item) :
    (ofItems row).judge retention x =
      (State.admits retention row x,
        ofItems (if State.admits retention row x then row ++ [x] else row)) := by
  have hiff : State.admits retention row x = true ↔
      ¬ (retention.copies ≤ ((ofItems row x.cell).getD []).length ∨
        x.provenance ∈ (ofItems row x.cell).getD []) := by
    rw [State.admits_iff, getD_ofItems, List.length_map, not_or, Nat.not_le]
    simp
  cases hadmits : State.admits retention row x with
  | true =>
    rw [judge, if_neg (hiff.mp hadmits), if_pos rfl, ofItems_concat]
  | false =>
    have hrefused := not_not.mp (mt hiff.mpr (Bool.eq_false_iff.mp hadmits))
    rw [judge, if_pos hrefused, if_neg Bool.false_ne_true]
    -- a refusal makes no entry: the one that it was judged by is there
    obtain ⟨copies, hcopies⟩ : ∃ copies, ofItems row x.cell = some copies := by
      cases hentry : ofItems row x.cell with
      | none =>
        have hpos := retention.copies_pos
        simp [hentry] at hrefused
        omega
      | some copies => exact ⟨copies, rfl⟩
    rw [hcopies, Option.getD_some, ← hcopies, Function.update_eq_self]

end Ledger

namespace State

variable {s : State} {x : Item} {retention : Retention}

/-- Items and a ledger, in the place of items and a record. -/
abbrev Posted := List Item × Ledger

/-- Append an item if the ledger admits it. -/
def Posted.insert (retention : Retention) (p : Posted) (item : Item) : Posted :=
  let (admitted, ledger) := p.2.judge retention item
  (if admitted then p.1 ++ [item] else p.1, ledger)

/-- The items and the ledger after an operation. Sifting goes over all items with a new ledger. -/
def Operation.post (retention : Retention) (p : Posted) : Operation → Posted
  | insert item => p.insert retention item
  | push item => (p.1 ++ [item], p.2)
  | dedup => p.1.foldl (Posted.insert retention) ([], .blank)

/-- The items of a state, with the ledger of its record. -/
def posted (s : State) : Posted := (s.items, .ofItems s.record)

theorem insert_posted (s : State) (x : Item) :
    s.posted.insert s.retention x = (s.insert x).posted := by
  rw [Posted.insert, posted, Ledger.judge_ofItems, posted, State.insert]
  cases admits s.retention s.record x <;> rfl

theorem foldl_insert_posted (s : State) (items : List Item) :
    items.foldl (Posted.insert s.retention) s.posted = (s.insertAll items).posted := by
  induction items generalizing s with
  | nil => rfl
  | cons item rest ih =>
    rw [List.foldl_cons, insert_posted, insertAll_cons, ← ih, retention_insert]

theorem post_posted (s : State) (op : Operation) :
    op.post s.retention s.posted = (op.run s).posted := by
  cases op with
  | insert item => exact insert_posted s item
  | push item => rfl
  | dedup =>
    rw [Operation.run, dedup_eq_insertAll]
    exact foldl_insert_posted (empty s.retention) s.items

theorem retention_run (s : State) (op : Operation) : (op.run s).retention = s.retention := by
  cases op with
  | insert item => exact retention_insert s item
  | push item => rfl
  | dedup => rfl

theorem foldl_post (s : State) (ops : List Operation) :
    ops.foldl (Operation.post s.retention) s.posted = (s.perform ops).posted := by
  induction ops generalizing s with
  | nil => rfl
  | cons op rest ih =>
    rw [List.foldl_cons, post_posted, ← retention_run s op, ih]
    rfl

/-- The items and the ledger that some operations and a sifting at the end make of none. -/
def Posted.made (retention : Retention) (ops : List Operation) : Posted :=
  (ops ++ [Operation.dedup]).foldl (Operation.post retention) ([], .blank)

/-- **A ledger holds what the record holds**, and both hold the items. -/
theorem posted_made (retention : Retention) (ops : List Operation) :
    Posted.made retention ops =
      ((made retention ops).items, .ofItems (made retention ops).items) := by
  have hposted : (made retention ops).posted =
      ((made retention ops).items, .ofItems (made retention ops).items) := by
    rw [posted, (settled_made retention ops).aligned]
  exact (foldl_post (empty retention) (ops ++ [Operation.dedup])).trans hposted

/-- A settled state contains an item if it has a copy of it, or anything of its cell where one copy
stands for all. -/
theorem Aligned.contains_iff (h : s.Aligned) :
    s.contains x = true ↔
      ∃ y ∈ s.items, y.cell = x.cell ∧ (s.retention = .strict → y.provenance = x.provenance) := by
  rw [contains, h]
  cases s.retention with
  | strict =>
    refine List.any_eq_true.trans (exists_congr fun y => and_congr_right fun _ => ?_)
    rw [Item.sameCopy_iff_cell]
    exact ⟨fun hsame => ⟨hsame.1.symm, fun _ => hsame.2.symm⟩,
      fun hsame => ⟨hsame.1.symm, (hsame.2 rfl).symm⟩⟩
  | loose =>
    refine List.any_eq_true.trans (exists_congr fun y => and_congr_right fun _ => ?_)
    rw [Item.sameCell_iff_cell]
    exact ⟨fun hcell => ⟨hcell.symm, fun hstrict => Retention.noConfusion hstrict⟩,
      fun hsame => hsame.1.symm⟩

end State

/-! ### Filling a chart -/

/-- No state has unjudged items. -/
def Judged (states : List State) : Prop :=
  ∀ (i : Nat) (s : State), states[i]? = some s → s.Settled

namespace Rules

variable {rules : Rules} {n : Nullable} {retention : Retention} {input : List String}
  {f g : Filling} {here s : State} {item : Item} {count p : Nat}

theorem settled_of_written (hjudged : Judged f.states) (hhere : f.states[f.position]? = some here)
    (h : rules.written? n retention input f here item = some (p, s)) : s.Settled := by
  rcases written?_cases h with ⟨-, rfl⟩ | ⟨symbol, -, rfl⟩ | ⟨-, rfl⟩
  · exact (hjudged _ here hhere).insertAll _
  · exact State.settled_dedup _
  · have hnext : (f.states[f.position + 1]?.getD (.empty retention)).Settled := by
      cases hstate : f.states[f.position + 1]? with
      | none => exact State.settled_empty retention
      | some t => exact hjudged _ t hstate
    exact hnext.insertAll [item.advance .scan]

theorem judged_step? (hjudged : Judged f.states)
    (h : rules.step? n retention input f = some g) : Judged g.states :=
  forall_step? hjudged (fun _ _ hhere _ _ _ => settled_of_written hjudged hhere) h

/-- **No pushed item is left unjudged** between the steps of the loop. -/
theorem judged_steps? (hjudged : Judged f.states)
    (h : rules.steps? n retention input count f = some g) : Judged g.states := by
  induction count generalizing f with
  | zero =>
    obtain rfl := Option.some.inj h
    exact hjudged
  | succ count ih =>
    rw [steps?] at h
    obtain ⟨mid, hstep, hrest⟩ := Option.bind_eq_some_iff.mp h
    exact ih (judged_step? hjudged hstep) hrest

theorem judged_seed (rules : Rules) (retention : Retention) (start : String) :
    Judged [rules.seed retention start] := by
  intro i s hs
  obtain ⟨hi, rfl⟩ := List.getElem?_eq_some_iff.mp hs
  obtain rfl := Nat.lt_one_iff.mp hi
  exact (State.settled_empty retention).insertAll _

end Rules

/-! ### What is kept -/

namespace State

/-- **Operations on a state leave what an ideal filter keeps.** Take any insertions, pushes and
siftings of an empty state, in any order, and a sifting at the end.

The items are those that the ideal filter keeps of all that was offered: an item is kept if fewer of
its cell were kept before it than the retention allows, four or one, and none of these has its
provenance. The record is the items, so the state contains an item if a copy of it was kept, or
anything of its cell where one copy stands for all. With a ledger for a record the same items are
left, and the ledger has the provenances of these.

To sift a state twice is to sift it once. From a state without unjudged items on, to push items and
then to sift is to insert each of them, and does not move the items that are there. This is how the
rules of a symbol are added while a chart is filled, where no state ever has unjudged items between
two steps. -/
theorem perform_ideal (retention : Retention) (ops : List Operation) :
    (retention.copies = if retention = .strict then 4 else 1) ∧
    (∃ keep, Ideal retention.copies (offered ops) keep) ∧
    (∀ keep, Ideal retention.copies (offered ops) keep →
      (made retention ops).items = picked (offered ops) keep (offered ops).length) ∧
    ((made retention ops).record = (made retention ops).items ∧
      (∀ item, (made retention ops).contains item = true ↔
        ∃ y ∈ (made retention ops).items,
          y.cell = item.cell ∧ (retention = .strict → y.provenance = item.provenance)) ∧
      Posted.made retention ops =
        ((made retention ops).items, .ofItems (made retention ops).items)) ∧
    (∀ s : State, s.dedup.dedup = s.dedup) ∧
    (∀ inserted pushed : List Item,
      (made retention ops).perform (inserted.map .insert ++ (pushed.map .push ++ [.dedup])) =
        (made retention ops).perform (inserted.map .insert ++ pushed.map .insert) ∧
      ((made retention ops).perform (inserted.map .insert)).items <+:
        ((made retention ops).perform (inserted.map .insert ++ pushed.map .insert)).items) ∧
    ∀ (rules : Rules) (n : Nullable) (start : String) (input : List String) (count : Nat)
      (f : Filling) (here : State) (item : Item) (symbol : String),
      rules.steps? n retention input count ⟨[rules.seed retention start], 0, 0⟩ = some f →
      f.states[f.position]? = some here → here.items[f.index]? = some item →
      item.next? = some symbol → rules.defines symbol = true →
        rules.step? n retention input f =
          some ⟨f.states.set f.position
              (here.insertAll (rules.predictions n item symbol f.position)),
            f.position, f.index + 1⟩ ∧
        here.items <+: (here.insertAll (rules.predictions n item symbol f.position)).items := by
  have hmade := settled_made retention ops
  refine ⟨by cases retention <;> rfl, ⟨_, ideal_admittedAt retention _⟩, fun keep h => ?_,
    ⟨hmade.aligned, fun item => ?_, posted_made retention ops⟩, fun s => (settled_dedup s).dedup_eq,
    fun inserted pushed => ⟨?_, ?_⟩, ?_⟩
  · rw [made_eq, h.picked_eq]
  · have hretention : (made retention ops).retention = retention := by
      rw [made_eq]
      exact retention_insertAll _ _
    rw [hmade.aligned.contains_iff, hretention]
  · have hinserted := hmade.insertAll inserted
    rw [perform_append, perform_append, perform_append, perform_insert, perform_insert,
      perform_push]
    exact dedup_pushAll hinserted.aligned hinserted.sifted pushed
  · rw [perform_append, perform_insert, perform_insert]
    exact items_prefix_insertAll _ pushed
  · intro rules n start input count f here item symbol hsteps hhere hitem hnext hdefines
    have hjudged := Rules.judged_steps? (Rules.judged_seed rules retention start) hsteps
    obtain ⟨haligned, hsifted⟩ := hjudged _ here hhere
    refine ⟨?_, items_prefix_insertAll here _⟩
    rw [Rules.step?, hhere]
    simp only [hitem, Rules.serve, hnext, hdefines, if_true, dedup_pushAll haligned hsifted]

/-- The one rule of the start symbol expects a symbol that is erased. Serving its item adds the rule
of that symbol and the item that steps over it, after the item that is there. -/
theorem erased_symbol_predicted :
    Rules.step? [⟨"S", ["A"]⟩, ⟨"A", []⟩] (Rules.nullable [⟨"S", ["A"]⟩, ⟨"A", []⟩]) .strict []
        ⟨[Rules.seed [⟨"S", ["A"]⟩, ⟨"A", []⟩] .strict "S"], 0, 0⟩ =
      some ⟨[(Rules.seed [⟨"S", ["A"]⟩, ⟨"A", []⟩] .strict "S").insertAll
        [.predicted ⟨"A", []⟩ 0, (Item.predicted ⟨"S", ["A"]⟩ 0).advance .complete]], 0, 1⟩ :=
  ((perform_ideal .strict []).2.2.2.2.2.2 [⟨"S", ["A"]⟩, ⟨"A", []⟩]
    (Rules.nullable [⟨"S", ["A"]⟩, ⟨"A", []⟩]) "S" [] 0
    ⟨[Rules.seed [⟨"S", ["A"]⟩, ⟨"A", []⟩] .strict "S"], 0, 0⟩
    (Rules.seed [⟨"S", ["A"]⟩, ⟨"A", []⟩] .strict "S") (.predicted ⟨"S", ["A"]⟩ 0) "A"
    rfl rfl rfl rfl rfl).1

end State

end ContextFree
