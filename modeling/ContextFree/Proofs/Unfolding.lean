import ContextFree.Forest.Unfold
import ContextFree.Proofs.Exactness

/-!
# What the items of a chart unfold into

The links of an item lead to items made before it, and an item has no more links than nonterminals
before its dot. So every link finds a nonterminal in the row of the rule, no path is longer than the
chart has items, and the tree of an item has a node for each item that its links lead to, directly
or through others.

Which symbol of the rule a node stands at may be wrong when other nonterminals were stepped over.
The rules of the nodes in preorder are right all the same: they are those of a sketch of the tokens
that the item spans, in which the symbols that were stepped over are left open.

## Main definitions

* `ContextFree.Chart.rank` - the number of items made before a place.
* `ContextFree.Rules.linked` - the rules of the tree at a link.
* `ContextFree.Rules.Unfolds` - how links unfold into a sketch.

## Main results

* `ContextFree.Rules.Made.before_of_mem_provenance` - links lead to items made before.
* `ContextFree.Rules.linked_succ` - the rules of a tree are those below its links.
* `ContextFree.Rules.Unfolds.flatMap_linked` - the rules below links are those of their trees.
* `ContextFree.Rules.Made.exists_unfolds` - an item unfolds into a sketch of what it spans.
* `ContextFree.Rules.exists_unfolds_of_mem_finals` - a final item unfolds into a sketch of the
  input.
-/

namespace ContextFree

/-! ### Ranks -/

theorem Link.before.trans {a b c : Link} (hab : a.before b) (hbc : b.before c) : a.before c := by
  unfold Link.before at *
  omega

namespace State

theorem total_append (a b : List State) : total (a ++ b) = total a + total b := by
  induction a with
  | nil => exact (Nat.zero_add _).symm
  | cons s rest ih => rw [List.cons_append, total, total, ih, Nat.add_assoc]

theorem total_take_lt_of_getElem? {states : List State} {s : State} {i k : Nat}
    (hs : states[i]? = some s) (hk : k < s.size) :
    total (states.take i) + k < total (states.take (i + 1)) := by
  rw [List.take_add_one, hs, total_append]
  exact Nat.add_lt_add_left hk _

theorem total_take_le (states : List State) {i j : Nat} (h : i ≤ j) :
    total (states.take i) ≤ total (states.take j) := by
  have hsplit : states.take i ++ (states.take j).drop i = states.take j := by
    conv_rhs => rw [← List.take_append_drop i (states.take j), List.take_take, Nat.min_eq_left h]
  rw [← hsplit, total_append]
  exact Nat.le_add_right _ _

end State

namespace Chart

variable {c : Chart} {l l' : Link} {x : Item}

/-- The number of items made before a place: those of the states before, and those before the
place in its own state. -/
def rank (c : Chart) (l : Link) : Nat := State.total (c.states.take l.position) + l.index

theorem rank_lt_of_item? (h : c.item? l = some x) {j : Nat} (hj : l.position < j) :
    c.rank l < State.total (c.states.take j) := by
  obtain ⟨s, hs, hx⟩ := item?_eq_some_iff.mp h
  have hindex : l.index < s.size := (List.getElem?_eq_some_iff.mp hx).1
  have hlt := State.total_take_lt_of_getElem? hs hindex
  have hle : State.total (c.states.take (l.position + 1)) ≤ State.total (c.states.take j) :=
    State.total_take_le c.states hj
  rw [rank]
  omega

theorem rank_lt_of_before (h : c.item? l' = some x) (hbefore : l'.before l) :
    c.rank l' < c.rank l := by
  rcases hbefore with hlt | ⟨heq, hlt⟩
  · have hrank := rank_lt_of_item? h hlt
    show c.rank l' < State.total (c.states.take l.position) + l.index
    omega
  · rw [rank, rank, heq]
    omega

theorem rank_lt_size (h : c.item? l = some x) : c.rank l < c.size := by
  obtain ⟨s, hs, -⟩ := item?_eq_some_iff.mp h
  have hlt := rank_lt_of_item? h (List.getElem?_eq_some_iff.mp hs).1
  rwa [List.take_length] at hlt

/-! ### Final items -/

/-- The final items of a symbol are the items of the last state that span it. -/
theorem mem_finals {symbol : String} : l ∈ c.finals symbol ↔
    l.position + 1 = c.length ∧ ∃ x, c.item? l = some x ∧ x.spans symbol = true := by
  obtain ⟨i, k⟩ := l
  rw [finals]
  cases hlast : c.states.getLast? with
  | none =>
    have hnil : c.states = [] := List.getLast?_eq_none_iff.mp hlast
    simp [length, hnil]
  | some last =>
    have hpos : 0 < c.states.length := List.length_pos_of_ne_nil fun hnil => by
      simp [hnil] at hlast
    rw [List.getLast?_eq_getElem?] at hlast
    constructor
    · intro h
      obtain ⟨⟨x, k'⟩, hentry, heq⟩ := List.mem_map.mp h
      obtain ⟨hmem, hspans⟩ := List.mem_filter.mp hentry
      obtain ⟨rfl, rfl⟩ := Link.mk.inj heq
      refine ⟨Nat.sub_add_cancel hpos, x, item?_eq_some_iff.mpr ⟨last, hlast, ?_⟩, hspans⟩
      exact List.mem_zipIdx_iff_getElem?.mp hmem
    · rintro ⟨hi, x, hx, hspans⟩
      obtain rfl : i = c.length - 1 := Nat.eq_sub_of_add_eq hi
      obtain ⟨s, hs, hk⟩ := item?_eq_some_iff.mp hx
      obtain rfl := Option.some.inj (hlast.symm.trans hs)
      exact List.mem_map.mpr ⟨(x, k),
        List.mem_filter.mpr ⟨List.mem_zipIdx_iff_getElem?.mpr hk, hspans⟩, rfl⟩

end Chart

namespace Rules

variable {rules : Rules} {c : Chart} {start : String} {input : List String} {l : Link} {x : Item}

/-! ### The links of an item -/

/-- Links lead to items made before. -/
theorem Made.before_of_mem_provenance {n : Nullable} (h : rules.Made n start input c l x) :
    ∀ l' ∈ x.provenance, l'.before l ∧ ∃ y, c.item? l' = some y := by
  induction h with
  | seeded =>
    intro l' hl'
    exact absurd hl' List.not_mem_nil
  | predicted =>
    intro l' hl'
    exact absurd hl' List.not_mem_nil
  | skipped _ hjk _ _ ih =>
    intro l' hl'
    obtain ⟨hbefore, hitem⟩ := ih l' hl'
    exact ⟨hbefore.trans (Or.inr ⟨rfl, hjk⟩), hitem⟩
  | @completed _ i j _ _ x _ hbefore _ _ hjk _ _ hat ihp _ =>
    intro l' hl'
    rcases List.mem_append.mp hl' with hl' | hl'
    · exact ⟨(ihp l' hl').1.trans hbefore, (ihp l' hl').2⟩
    · obtain rfl := List.mem_singleton.mp hl'
      exact ⟨Or.inr ⟨rfl, hjk⟩, x, hat⟩
  | @scanned i _ _ _ _ _ _ _ _ ih =>
    intro l' hl'
    obtain ⟨hbefore, hitem⟩ := ih l' hl'
    exact ⟨hbefore.trans (Or.inl (Nat.lt_succ_self i)), hitem⟩

/-- An item that has not moved its dot has no links. -/
theorem Made.provenance_eq_nil {n : Nullable} (h : rules.Made n start input c l x)
    (hdot : x.dot = 0) : x.provenance = [] := by
  cases h with
  | seeded => rfl
  | predicted => rfl
  | skipped => exact absurd hdot (Nat.succ_ne_zero _)
  | completed => exact absurd hdot (Nat.succ_ne_zero _)
  | scanned => exact absurd hdot (Nat.succ_ne_zero _)

/-! ### The rules of a tree -/

/-- If there are no more links than nonterminals, every link has its tree in the row. -/
theorem rules_branches {grow : String → Link → Forest → Forest} {below : Link → List Rule}
    (hgrow : ∀ value l rest, (grow value l rest).rules = below l ++ rest.rules)
    {row : List String} {links : List Link} (h : links.length ≤ row.countP rules.defines) :
    (rules.branches grow row links).rules = links.flatMap below := by
  induction row generalizing links with
  | nil =>
    obtain rfl := List.eq_nil_of_length_eq_zero (Nat.le_zero.mp h)
    rfl
  | cons symbol rest ih =>
    cases hdefines : rules.defines symbol with
    | false =>
      rw [List.countP_cons_of_neg (by simp [hdefines])] at h
      rw [branches_terminal hdefines]
      exact ih h
    | true =>
      rw [List.countP_cons_of_pos hdefines] at h
      cases links with
      | nil =>
        rw [branches_open hdefines]
        exact ih (Nat.zero_le _)
      | cons l links =>
        rw [branches_linked hdefines, hgrow, ih (Nat.le_of_succ_le_succ h), List.flatMap_cons]

/-- The rules of the tree at a link, unfolded at most the given number of levels. -/
def linked (rules : Rules) (c : Chart) (depth : Nat) (l : Link) : List Rule :=
  (rules.unfold c depth "" l .nil).rules

/-- The rules of a tree do not depend on the row it stands in. -/
theorem rules_unfold (depth : Nat) (value : String) (l : Link) (rest : Forest) :
    (rules.unfold c depth value l rest).rules = rules.linked c depth l ++ rest.rules := by
  cases depth with
  | zero => rfl
  | succ depth =>
    rw [linked, unfold, unfold]
    cases c.item? l with
    | none => rfl
    | some item => simp [Forest.rules]

/-- The rules of a tree: the rule of its item, and those below the links. -/
theorem linked_succ (hx : c.item? l = some x)
    (hlength : x.provenance.length ≤ x.rule.rhs.countP rules.defines) (depth : Nat) :
    rules.linked c (depth + 1) l = x.rule :: x.provenance.flatMap (rules.linked c depth) := by
  rw [linked, unfold, hx]
  simp only [Forest.rules, List.append_nil, List.cons.injEq, true_and]
  split
  · next hempty =>
    rw [Rule.isEmpty_iff.mp hempty] at hlength
    rw [List.eq_nil_of_length_eq_zero (Nat.le_zero.mp hlength)]
    rfl
  · exact rules_branches (rules_unfold depth) hlength

/-! ### Items are sketches -/

/-- A row of symbols, read from a position on, unfolds into a row of trees by the links of its
nonterminals: a terminal takes up one position, a symbol that was stepped over has no link, and a
link leads to an item that was completed from where the symbol was expected. -/
inductive Unfolds (rules : Rules) (c : Chart) : Nat → Form → List Link → Sketch → Prop where
  /-- No symbol is left. -/
  | nil {i : Nat} : Unfolds rules c i [] [] .nil
  /-- A terminal is read. -/
  | leaf {i : Nat} {symbol : String} {row : Form} {links : List Link} {t : Sketch} :
      rules.defines symbol = false → Unfolds rules c (i + 1) row links t →
        Unfolds rules c i (symbol :: row) links (.leaf symbol t)
  /-- A symbol is stepped over. -/
  | gap {i : Nat} {symbol : String} {row : Form} {links : List Link} {t : Sketch} :
      rules.Derives [symbol] [] → Unfolds rules c i row links t →
        Unfolds rules c i (symbol :: row) links (.gap symbol t)
  /-- A nonterminal is linked to a completed item. -/
  | node {j k : Nat} {x : Item} {row : Form} {links : List Link} {u t : Sketch} :
      c.item? ⟨j, k⟩ = some x → x.rule ∈ rules → x.next? = none →
        Unfolds rules c x.start x.rule.rhs x.provenance u → x.start + u.yield.length = j →
          Unfolds rules c j row links t →
            Unfolds rules c x.start (x.rule.lhs :: row) (⟨j, k⟩ :: links) (.node x.rule u t)

namespace Unfolds

variable {i : Nat} {row row' : Form} {links links' : List Link} {t t' : Sketch}

theorem roots (h : rules.Unfolds c i row links t) : t.roots = row := by
  induction h with
  | nil => rfl
  | leaf _ _ ih => rw [Sketch.roots, ih]
  | gap _ _ ih => rw [Sketch.roots, ih]
  | node _ _ _ _ _ _ _ ih => rw [Sketch.roots, ih]

theorem valid (h : rules.Unfolds c i row links t) : t.Valid rules := by
  induction h with
  | nil => trivial
  | leaf hterminal _ ih => exact ⟨hterminal, ih⟩
  | gap hnullable _ ih => exact ⟨hnullable, ih⟩
  | node _ hr _ hbelow _ _ ihbelow ih => exact ⟨hr, hbelow.roots, ihbelow, ih⟩

/-- Rows side by side unfold into trees side by side. -/
theorem append (h : rules.Unfolds c i row links t)
    (h' : rules.Unfolds c (i + t.yield.length) row' links' t') :
    rules.Unfolds c i (row ++ row') (links ++ links') (t.append t') := by
  induction h with
  | nil => exact h'
  | @leaf i symbol row links t hterminal _ ih =>
    rw [Sketch.yield, List.length_cons, Nat.add_comm t.yield.length 1, ← Nat.add_assoc] at h'
    exact .leaf hterminal (ih h')
  | gap hnullable _ ih => exact .gap hnullable (ih h')
  | node hx hr hnone hbelow hlength _ _ ih =>
    rw [Sketch.yield, List.length_append, ← Nat.add_assoc, hlength] at h'
    exact .node hx hr hnone hbelow hlength (ih h')

/-- There are no more links than nonterminals. -/
theorem length_le (h : rules.Unfolds c i row links t) :
    links.length ≤ row.countP rules.defines := by
  induction h with
  | nil => exact Nat.le_refl 0
  | leaf _ _ ih => exact Nat.le_trans ih (List.sublist_cons_self _ _).countP_le
  | gap _ _ ih => exact Nat.le_trans ih (List.sublist_cons_self _ _).countP_le
  | @node _ _ x _ _ _ _ _ hr _ _ _ _ _ ih =>
    have hdefines : rules.defines x.rule.lhs = true := defines_iff.mpr ⟨x.rule, hr, rfl⟩
    rw [List.countP_cons_of_pos hdefines]
    exact Nat.succ_le_succ ih

/-- The rules below the links, unfolded deep enough, are those of the trees in preorder. -/
theorem flatMap_linked (h : rules.Unfolds c i row links t)
    (hbefore : ∀ l x, c.item? l = some x →
      ∀ l' ∈ x.provenance, l'.before l ∧ ∃ y, c.item? l' = some y) :
    ∀ depth, (∀ l ∈ links, c.rank l < depth) →
      links.flatMap (rules.linked c depth) = t.preorder := by
  induction h with
  | nil => exact fun _ _ => rfl
  | leaf _ _ ih => exact ih
  | gap _ _ ih => exact ih
  | @node j k x _ _ u _ hx _ _ hbelow _ _ ihbelow ih =>
    intro depth hdepth
    have hrank : c.rank ⟨j, k⟩ < depth := hdepth ⟨j, k⟩ List.mem_cons_self
    obtain ⟨below, rfl⟩ := Nat.exists_eq_succ_of_ne_zero (Nat.ne_zero_of_lt hrank)
    have hranks : ∀ l' ∈ x.provenance, c.rank l' < below := by
      intro l' hl'
      obtain ⟨hlt, y, hy⟩ := hbefore _ _ hx l' hl'
      have hrank' := Chart.rank_lt_of_before hy hlt
      omega
    rw [List.flatMap_cons, linked_succ hx hbelow.length_le, ihbelow below hranks,
      ih _ fun l hl => hdepth l (List.mem_cons_of_mem _ hl)]
    rfl

end Unfolds

/-- **An item unfolds into a sketch of what it spans**, with the symbols before the dot as roots. -/
theorem Made.exists_unfolds (h : rules.Made rules.nullable start input c l x) :
    ∃ t : Sketch, rules.Unfolds c x.start (x.rule.rhs.take x.dot) x.provenance t ∧
      t.yield = piece input x.start l.position := by
  induction h with
  | seeded => exact ⟨.nil, .nil, rfl⟩
  | @predicted i => exact ⟨.nil, .nil, (piece_self input i).symm⟩
  | @skipped _ _ _ x symbol _ _ hnext hnullable ih =>
    obtain ⟨t, hunfolds, hyield⟩ := ih
    have hgap := Unfolds.gap (c := c) (i := x.start + t.yield.length)
      (Nullable.contains_nullable_iff.mp hnullable) .nil
    refine ⟨t.append (.gap symbol .nil), ?_, ?_⟩
    · have hall := hunfolds.append hgap
      rwa [← Item.take_succ_of_next? hnext, List.append_nil] at hall
    · rw [Sketch.yield_append, hyield]
      exact List.append_nil _
  | @completed l i j k p x hp _ hwaits hx _ hnone hposition hat ihp ihx =>
    obtain ⟨tp, hunfoldsp, hyieldp⟩ := ihp
    obtain ⟨tx, hunfoldsx, hyieldx⟩ := ihx
    rw [List.take_of_length_le (List.getElem?_eq_none_iff.mp hnone)] at hunfoldsx
    have hexpected : p.start + tp.yield.length = x.start := by
      rw [hyieldp, length_piece hp.start_le hp.recognizes.position_le, hposition]
    have hended : x.start + tx.yield.length = i := by
      rw [hyieldx, length_piece hx.start_le hx.recognizes.position_le]
    have hnode := Unfolds.node hat hx.rule_mem hnone hunfoldsx hended .nil
    rw [← hexpected] at hnode
    refine ⟨tp.append (.node x.rule tx .nil), ?_, ?_⟩
    · have hall := hunfoldsp.append hnode
      rwa [← Item.take_succ_of_next? hwaits] at hall
    · rw [Sketch.yield_append, Sketch.yield, Sketch.yield, List.append_nil, hyieldp, hyieldx,
        hposition]
      exact piece_append_piece (hposition ▸ hp.start_le) hx.start_le input
  | @scanned i _ _ x token hx hnext hread hterminal ih =>
    obtain ⟨t, hunfolds, hyield⟩ := ih
    have hleaf := Unfolds.leaf (c := c) (i := x.start + t.yield.length) hterminal .nil
    refine ⟨t.append (.leaf token .nil), ?_, ?_⟩
    · have hall := hunfolds.append hleaf
      rwa [← Item.take_succ_of_next? hnext, List.append_nil] at hall
    · rw [Sketch.yield_append, hyield]
      exact (piece_succ_of_getElem? hx.start_le hread).symm

/-- A completed item unfolds into trees over the right side of its rule. -/
theorem Made.exists_unfolds_rhs (h : rules.Made rules.nullable start input c l x)
    (hnone : x.next? = none) :
    ∃ t : Sketch, rules.Unfolds c x.start x.rule.rhs x.provenance t ∧
      t.yield = piece input x.start l.position := by
  have hall : x.rule.rhs.take x.dot = x.rule.rhs :=
    List.take_of_length_le (List.getElem?_eq_none_iff.mp hnone)
  exact hall ▸ h.exists_unfolds

section Chart

variable {retention : Retention} {t : Sketch}

/-- The rules of the tree at a link, for an item whose right side unfolds into a row of trees. -/
theorem Unfolds.rules_tree {i : Nat}
    (h : rules.Unfolds (rules.chart rules.nullable retention start input) i x.rule.rhs x.provenance
      t)
    (hx : (rules.chart rules.nullable retention start input).item? l = some x) :
    (rules.tree (rules.chart rules.nullable retention start input) l).rules =
      x.rule :: t.preorder := by
  have hbefore : ∀ l x, (rules.chart rules.nullable retention start input).item? l = some x →
      ∀ l' ∈ x.provenance, l'.before l ∧
        ∃ y, (rules.chart rules.nullable retention start input).item? l' = some y :=
    fun _ _ hx => (made_of_item? hx).before_of_mem_provenance
  have hrank := Chart.rank_lt_size hx
  obtain ⟨below, hsize⟩ := Nat.exists_eq_succ_of_ne_zero (Nat.ne_zero_of_lt hrank)
  have hbelow : ∀ l' ∈ x.provenance,
      (rules.chart rules.nullable retention start input).rank l' < below := by
    intro l' hl'
    obtain ⟨hlt, y, hy⟩ := hbefore l x hx l' hl'
    have hrank' := Chart.rank_lt_of_before hy hlt
    omega
  rw [tree, rules_unfold, hsize, linked_succ hx h.length_le, h.flatMap_linked hbefore below hbelow]
  simp [Forest.rules]

/-- **A final item unfolds into a sketch of the input**, its rule over trees of its right side. -/
theorem exists_unfolds_of_mem_finals
    (hl : l ∈ (rules.chart rules.nullable retention start input).finals start)
    (hlength : input.length + 1 ≤ (rules.chart rules.nullable retention start input).length) :
    ∃ x t, (rules.chart rules.nullable retention start input).item? l = some x ∧
      x.spans start = true ∧ rules.IsSketch start input (.node x.rule t .nil) ∧
      rules.Unfolds (rules.chart rules.nullable retention start input) 0 x.rule.rhs x.provenance
        t := by
  obtain ⟨hlast, x, hx, hspans⟩ := Chart.mem_finals.mp hl
  obtain ⟨hlhs, hzero, hnone⟩ := Item.spans_iff.mp hspans
  have hmade := made_of_item? hx
  have hposition : l.position = input.length := by
    have hle : l.position ≤ input.length := hmade.recognizes.position_le
    omega
  obtain ⟨t, hunfolds, hyield⟩ := hmade.exists_unfolds_rhs hnone
  rw [hzero] at hunfolds
  rw [hzero, hposition, piece_zero, List.take_length] at hyield
  refine ⟨x, t, hx, hspans, ⟨⟨hmade.rule_mem, hunfolds.roots, hunfolds.valid, trivial⟩, ?_, ?_⟩,
    hunfolds⟩
  · rw [Sketch.roots, hlhs]
    rfl
  · rw [Sketch.yield, hyield]
    exact List.append_nil input

end Chart

end Rules

end ContextFree
