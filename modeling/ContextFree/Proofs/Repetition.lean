import ContextFree.Proofs.Acceptance
import ContextFree.Proofs.Corners
import ContextFree.Proofs.Renaming
import ContextFree.Proofs.Stepping

/-!
# Repeated rules

A rule that is listed again derives nothing new, so the analyses of the rules come to the same
symbols. It predicts the same items again, and a state that was offered an item takes no notice of
an equal one. So the chart of an input is the same without the later copies of the rules, link by
link, and so are its trees and what they spell.

A loop over a list may leave out later copies whenever the first one settles an entry: offering it
again changes nothing, now or later on. This is said once, for folds, and used for the items that a
state is offered as well as for the rules that a pass of an analysis goes over.

## Main definitions

* `ContextFree.Rules.distinct` - a rule list without the later copies of its rules.

## Main results

* `ContextFree.foldl_eraseDups` - when a fold may leave out later copies.
* `ContextFree.State.insertAll_eraseDups` - a state takes no notice of what it was offered before.
* `ContextFree.Rules.chart_distinct`, `ContextFree.Rules.parse_distinct` - the chart does not change.
* `ContextFree.Rules.tree_distinct` - nor do its trees.
-/


namespace ContextFree

/-- The rule list without the later copies of its rules. -/
def Rules.distinct (rules : Rules) : Rules := rules.eraseDups

/-! ### First occurrences -/

section

variable {α β : Type} [DecidableEq α]

theorem eraseDups_sublist (l : List α) : l.eraseDups.Sublist l := by
  induction l using eraseDups_induction with
  | nil => exact List.Sublist.refl _
  | cons a rest ih =>
    rw [List.eraseDups_cons]
    exact (ih.trans List.filter_sublist).cons_cons a

theorem filter_eraseDups (p : α → Bool) (l : List α) :
    l.eraseDups.filter p = (l.filter p).eraseDups := by
  induction l using eraseDups_induction with
  | nil => rfl
  | cons a rest ih =>
    rw [List.eraseDups_cons, List.filter_cons, List.filter_cons, ih, List.filter_filter]
    split
    · rw [List.eraseDups_cons, List.filter_filter]
      simp only [Bool.and_comm]
    · next ha =>
      -- nothing that `p` keeps is equal to an entry that it does not
      refine congrArg List.eraseDups (List.filter_congr fun b _ => ?_)
      by_cases hb : b = a
      · simp [hb, ha]
      · simp [hb]

variable {f : β → α → β} {P : β → α → Prop} {s : β} {l : List α}

/-- A fold may leave out an entry that is settled, so that its steps have no effect. -/
theorem foldl_filter_of_settled {a : α} (hstay : ∀ t, ∀ b ∈ l, P t a → P (f t b) a)
    (hself : ∀ t, P t a → f t a = t) (hs : P s a) :
    (l.filter fun b => !b == a).foldl f s = l.foldl f s := by
  induction l generalizing s with
  | nil => rfl
  | cons b rest ih =>
    have hrest : ∀ t, ∀ c ∈ rest, P t a → P (f t c) a := fun t c hc =>
      hstay t c (List.mem_cons_of_mem b hc)
    by_cases hb : b = a
    · subst hb
      rw [List.filter_cons_of_neg (by simp), ih hrest hs, List.foldl_cons, hself s hs]
    · rw [List.filter_cons_of_pos (by simpa using hb), List.foldl_cons, List.foldl_cons]
      exact ih hrest (hstay s b List.mem_cons_self hs)

/-- **A fold may leave out later copies** if each entry that has some is settled by its first one,
or from the beginning. -/
theorem foldl_eraseDups (hstay : ∀ t a, ∀ b ∈ l, P t a → P (f t b) a)
    (hself : ∀ t a, P t a → f t a = t)
    (hsettle : ∀ a, 1 < l.count a → P s a ∨ ∀ t, P (f t a) a) :
    l.eraseDups.foldl f s = l.foldl f s := by
  induction l using eraseDups_induction generalizing s with
  | nil => rfl
  | cons a rest ih =>
    have hmem : ∀ b ∈ rest, b ∈ a :: rest := fun b hb => List.mem_cons_of_mem a hb
    have hrest : (rest.filter fun b => !b == a).foldl f (f s a) = rest.foldl f (f s a) := by
      by_cases ha : a ∈ rest
      · have hcount : 1 < (a :: rest).count a := by
          have hpos := List.count_pos_iff.mpr ha
          rw [List.count_cons_self]
          omega
        have hsettled : P (f s a) a := by
          rcases hsettle a hcount with hs | hf
          · exact hstay s a a List.mem_cons_self hs
          · exact hf s
        exact foldl_filter_of_settled (fun t b hb => hstay t a b (hmem b hb))
          (fun t => hself t a) hsettled
      · have hne : ∀ b ∈ rest, (!b == a) = true := by
          rintro b hb
          simpa using fun h : b = a => ha (h ▸ hb)
        rw [List.filter_eq_self.mpr hne]
    rw [List.eraseDups_cons, List.foldl_cons, List.foldl_cons, ← hrest]
    refine ih (fun t b c hc => hstay t b c (hmem c (List.mem_filter.mp hc).1)) fun b hb => ?_
    have hle : (rest.filter fun b => !b == a).count b ≤ (a :: rest).count b :=
      (List.filter_sublist.trans (List.sublist_cons_self a rest)).count_le b
    rcases hsettle b (by omega) with hs | hf
    · exact Or.inl (hstay s b a List.mem_cons_self hs)
    · exact Or.inr hf

end

/-! ### States -/

namespace State

variable {s : State} {x : Item}

/-- What a record refuses, a longer one refuses. -/
theorem not_admits_append {retention : Retention} {record : List Item}
    (h : admits retention record x = false) (more : List Item) :
    admits retention (record ++ more) x = false := by
  rw [admits, Bool.and_eq_false_iff] at h ⊢
  rcases h with hfull | hcopy
  · have hfull := of_decide_eq_false hfull
    refine Or.inl (decide_eq_false ?_)
    rw [List.filter_append, List.length_append]
    omega
  · rw [Bool.not_eq_false'] at hcopy
    exact Or.inr (by rw [List.any_append, hcopy]; rfl)

/-- An item that was inserted is refused. -/
theorem not_admits_insert (s : State) (x : Item) :
    admits (s.insert x).retention (s.insert x).record x = false := by
  rw [retention_insert, insert]
  split
  · rw [admits, Bool.and_eq_false_iff]
    have hself : x.sameCopy x = true := Item.sameCopy_iff.mpr ⟨⟨rfl, rfl, rfl⟩, rfl⟩
    exact Or.inr (by simp [hself])
  · next hrefused => exact Bool.not_eq_true _ ▸ hrefused

/-- A state takes no notice of an item that it was offered before. -/
theorem insertAll_eraseDups (s : State) (offered : List Item) :
    s.insertAll offered.eraseDups = s.insertAll offered := by
  refine foldl_eraseDups (P := fun s x => admits s.retention s.record x = false)
    (fun t x y _ h => ?_) (fun t x h => ?_) fun x _ => Or.inr fun t => not_admits_insert t x
  · rw [retention_insert, insert]
    split
    · exact not_admits_append h [y]
    · exact h
  · rw [insert, if_neg (by simp [h])]

end State

/-! ### Filling a chart -/

namespace Rules

variable {rules : Rules} {n n' : Nullable} {retention : Retention} {earlier : List State}
  {here kernel : State} {start symbol : String} {input : List String} {bound extra index : Nat}

theorem mem_distinct {r : Rule} : r ∈ rules.distinct ↔ r ∈ rules := List.mem_eraseDups

@[simp] theorem defines_distinct (rules : Rules) (symbol : String) :
    rules.distinct.defines symbol = rules.defines symbol := by
  rw [Bool.eq_iff_iff, defines_iff, defines_iff]
  simp only [mem_distinct]

theorem of_distinct (rules : Rules) (symbol : String) :
    rules.distinct.of symbol = Rules.distinct (rules.of symbol) :=
  filter_eraseDups _ rules

theorem dots_le_of_sublist {part : Rules} (h : part.Sublist rules) : part.dots ≤ rules.dots := by
  induction h with
  | slnil => exact Nat.le_refl _
  | cons r _ ih => exact Nat.le_trans ih (Nat.le_add_left _ _)
  | cons_cons r _ ih => exact Nat.add_le_add_left ih _

theorem room_distinct_le (rules : Rules) (retention : Retention) (position : Nat) :
    rules.distinct.room retention position ≤ rules.room retention position :=
  Nat.mul_le_mul_right _ (Nat.mul_le_mul_left _ (dots_le_of_sublist (eraseDups_sublist rules)))

/-- The rules of a symbol are begun once each. -/
theorem insertAll_begun (s : State) (rules : Rules) (symbol : String) (position : Nat) :
    s.insertAll ((rules.distinct.of symbol).map (Item.predicted · position)) =
      s.insertAll ((rules.of symbol).map (Item.predicted · position)) := by
  have hinj : Function.Injective (Item.predicted · position) := fun _ _ h => (Item.mk.inj h).1
  rw [of_distinct, distinct, ← eraseDups_map hinj.injOn, State.insertAll_eraseDups]

theorem scanned_distinct (rules : Rules) (here : State) (token : String) :
    rules.distinct.scanned here token = rules.scanned here token := by
  rw [scanned, scanned, defines_distinct]

/-- A walk that has come to its end takes no more steps. -/
theorem walk_add (h : (rules.walk n earlier bound index here).items.length ≤ index + bound) :
    rules.walk n earlier (bound + extra) index here = rules.walk n earlier bound index here := by
  induction bound generalizing index here with
  | zero =>
    have hnone : here.get? index = none := List.getElem?_eq_none_iff.mpr h
    cases extra with
    | zero => rfl
    | succ extra =>
      rw [Nat.zero_add, walk.eq_def]
      simp only [hnone, walk]
  | succ bound ih =>
    rw [Nat.add_right_comm, walk, walk] at *
    cases hitem : here.get? index with
    | none => rfl
    | some item =>
      rw [hitem] at h
      exact ih (by simpa [Nat.add_assoc, Nat.add_comm 1] using h)

section

variable (hn : ∀ symbol, n'.contains symbol = n.contains symbol)

include hn

theorem insertAll_offers_distinct (s : State) (earlier : List State) (here : State) (index : Nat)
    (x : Item) : s.insertAll (rules.distinct.offers n' earlier here index x) =
      s.insertAll (rules.offers n earlier here index x) := by
  rw [offers, offers]
  cases x.next? with
  | none => rfl
  | some symbol =>
    simp only [defines_distinct]
    split
    · rw [predictions, predictions, State.insertAll_append, State.insertAll_append,
        insertAll_begun, hn]
    · rfl

theorem walk_distinct (earlier : List State) (bound index : Nat) (here : State) :
    rules.distinct.walk n' earlier bound index here = rules.walk n earlier bound index here := by
  induction bound generalizing index here with
  | zero => rfl
  | succ bound ih =>
    rw [walk, walk]
    cases here.get? index with
    | none => rfl
    | some x => simp only [insertAll_offers_distinct hn, ih]

/-- A state that fits into the room that different rules have is closed the same way. -/
theorem close_distinct (hfits : (rules.distinct.close n' earlier here).items.length ≤
      rules.distinct.room here.retention earlier.length) :
    rules.distinct.close n' earlier here = rules.close n earlier here := by
  obtain ⟨extra, hroom⟩ :=
    Nat.exists_eq_add_of_le (room_distinct_le rules here.retention earlier.length)
  rw [close, walk_distinct hn] at hfits ⊢
  rw [close, hroom, walk_add (by rwa [Nat.zero_add])]

theorem fillFrom_distinct
    (hfits : ∀ i s, (rules.distinct.fillFrom n' earlier kernel input)[i]? = some s →
      s.items.length ≤ rules.distinct.room kernel.retention i) :
    rules.distinct.fillFrom n' earlier kernel input = rules.fillFrom n earlier kernel input := by
  induction input generalizing earlier kernel with
  | nil =>
    have hclose := close_distinct hn (hfits _ _ (fills_fillFrom _ _ _ _ _).first)
    rw [fillFrom, fillFrom, hclose]
  | cons token rest ih =>
    have hclose := close_distinct hn (hfits _ _ (fills_fillFrom _ _ _ _ _).first)
    rw [fillFrom, hclose, scanned_distinct] at hfits ⊢
    rw [fillFrom]
    cases hmoved : rules.scanned (rules.close n earlier kernel) token with
    | nil => rfl
    | cons x more =>
      simp only [hmoved] at hfits ⊢
      exact ih (by rw [State.retention_insertAll]; exact hfits)

/-- **The chart does not change.** -/
theorem chart_distinct (rules : Rules) (retention : Retention) (start : String)
    (input : List String) :
    rules.distinct.chart n' retention start input = rules.chart n retention start input := by
  have hseed : rules.distinct.seed retention start = rules.seed retention start :=
    insertAll_begun _ rules start 0
  have hfits : ∀ i s, (rules.distinct.fillFrom n' [] (rules.distinct.seed retention start)
      input)[i]? = some s → s.items.length ≤
        rules.distinct.room (rules.distinct.seed retention start).retention i := by
    intro i s hs
    rw [seed, State.retention_insertAll]
    exact length_items_le (show (rules.distinct.chart n' retention start input).states[i]? = some s
      from hs)
  rw [chart, chart, fillFrom_distinct hn hfits, hseed]

end

/-! ### Analyses -/

theorem derives_distinct_iff {a b : Form} : rules.distinct.Derives a b ↔ rules.Derives a b :=
  ⟨Derives.mono fun _ => mem_distinct.mp, Derives.mono fun _ => mem_distinct.mpr⟩

@[simp] theorem contains_nullable_distinct (rules : Rules) (symbol : String) :
    rules.distinct.nullable.contains symbol = rules.nullable.contains symbol := by
  rw [Bool.eq_iff_iff, Nullable.contains_nullable_iff, Nullable.contains_nullable_iff,
    derives_distinct_iff]

theorem leftRecursive_distinct (rules : Rules) :
    rules.distinct.leftRecursive rules.distinct.nullable = rules.leftRecursive rules.nullable := by
  rw [Bool.eq_iff_iff, leftRecursive_iff_exists_path, leftRecursive_iff_exists_path]
  simp only [path_corners_iff, properlyDerives_singleton_iff, derives_distinct_iff, mem_distinct,
    defines_distinct]

theorem parse_distinct (rules : Rules) (start : String) (input : List String) :
    (rules.distinct.parse start input).1 = (rules.parse start input).1 := by
  have hretention : rules.distinct.retention rules.distinct.nullable =
      rules.retention rules.nullable :=
    congrArg Retention.ofLeftRecursive (leftRecursive_distinct rules)
  show rules.distinct.chart _ (rules.distinct.retention _) start input = _
  rw [hretention, chart_distinct (contains_nullable_distinct rules)]
  rfl

/-! ### Trees -/

theorem branches_distinct (rules : Rules) (grow : String → Link → Forest → Forest) (row : Form)
    (links : List Link) :
    rules.distinct.branches grow row links = rules.branches grow row links := by
  induction row generalizing links with
  | nil => rfl
  | cons symbol rest ih =>
    rw [branches.eq_def, branches.eq_def rules]
    simp only [defines_distinct, ih]

theorem unfold_distinct (rules : Rules) (c : Chart) (depth : Nat) :
    rules.distinct.unfold c depth = rules.unfold c depth := by
  induction depth with
  | zero => rfl
  | succ depth ih =>
    funext value l rest
    rw [unfold, unfold, ih]
    simp only [branches_distinct]

theorem tree_distinct (rules : Rules) (c : Chart) (l : Link) :
    rules.distinct.tree c l = rules.tree c l := by
  rw [tree, tree, unfold_distinct]

/-- A tree spells the same. -/
theorem spelled_distinct (rules : Rules) (start : String) (input : List String) (l : Link) :
    rules.distinct.spelled start input l = rules.spelled start input l := by
  rw [spelled, spelled, tree_distinct, parse_distinct, Form.without, Form.without]
  simp only [contains_nullable_distinct]

end Rules

end ContextFree
