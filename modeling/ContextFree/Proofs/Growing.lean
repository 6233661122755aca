import ContextFree.Proofs.Unfolding

/-!
# How trees are grown from a chart

A tree is unfolded by handing the links of an item to the nonterminals of its rule one after the
other, until no link is left; the nonterminals after that stay without. Nothing says which
nonterminal a link belongs to. What is true of every tree is what does not depend on that: the
children of a node have the symbols of its rule as values and carry the items that its own item
links to, each once and in order.

If the nodes of a tree do carry the items of their symbols, then the nonterminals left without a
link are nullable: with the symbols of the links in front they are all that the rule has, so they
are the symbols that recognition stepped over.

## Main definitions

* `ContextFree.Forest.Grown` - how rows of trees are grown from a chart.
* `ContextFree.Forest.Labelled` - nodes carry the items of their symbols.
* `ContextFree.Forest.Settled` - no symbols but nullable ones are left open.
* `ContextFree.Rules.WellLinked` - what the links of the completed items of a chart are.

## Main results

* `ContextFree.Rules.wellLinked_chart` - filled charts are well linked.
* `ContextFree.Rules.grown_unfold` - their trees are grown from them.
* `ContextFree.Rules.settled_unfold` - labelled trees are settled.
-/

namespace ContextFree

namespace Forest

/-! ### Rows of trees -/

/-- The values of the trees of a row. -/
def values : Forest → List String
  | nil => []
  | leaf value rest => value :: rest.values
  | node value _ _ _ rest => value :: rest.values

/-- The links of the trees of a row that carry an item. -/
def links : Forest → List Link
  | nil => []
  | leaf _ rest => rest.links
  | node _ link _ _ rest => link :: rest.links

/-- A row of trees is grown from a chart: a node stands at a nonterminal and carries a completed
item; its children have the symbols of the item's rule as values and carry the items it links to, or
are the one leaf of an empty rule; and a nonterminal that carries no item comes after those that
do. -/
def Grown (rules : Rules) (c : Chart) : Forest → Prop
  | nil => True
  | leaf value rest => (rules.defines value = true → rest.links = []) ∧ rest.Grown rules c
  | node value link rule children rest =>
    rules.defines value = true ∧
      (∃ x, c.item? link = some x ∧ x.isComplete = true ∧ x.rule = rule ∧
        children.links = x.provenance) ∧
      (if rule.isEmpty then children = .leaf "" .nil
        else children.values = rule.rhs ∧ children.Grown rules c) ∧
      rest.Grown rules c

/-- Every node that carries an item has the left side of the item's rule as its value. -/
def Labelled : Forest → Prop
  | nil => True
  | leaf _ rest => rest.Labelled
  | node value _ rule children rest => value = rule.lhs ∧ children.Labelled ∧ rest.Labelled

/-- Every leaf is a terminal, the leaf of an empty rule, or a nullable symbol. -/
def Settled (rules : Rules) : Forest → Prop
  | nil => True
  | leaf value rest =>
    (rules.defines value = false ∨ rules.Derives [value] []) ∧ rest.Settled rules
  | node _ _ rule children rest =>
    (if rule.isEmpty then children = .leaf "" .nil else children.Settled rules) ∧
      rest.Settled rules

end Forest

namespace Rules

variable {rules : Rules} {c : Chart} {start : String} {l : Link} {x : Item} {t : Sketch}
  {i depth : Nat} {row : Form} {links : List Link}

/-! ### Links of completed items -/

/-- The nonterminals in the rule of a completed item are the symbols its links recognize and some
nullable ones, in some order, and the links lead to completed items made before. -/
def WellLinked (rules : Rules) (c : Chart) : Prop :=
  ∀ l x, c.item? l = some x → x.next? = none →
    (∃ gaps : Form, (∀ symbol ∈ gaps, rules.Derives [symbol] []) ∧
      (x.rule.rhs.filter rules.defines).Perm (x.provenance.map (rootSymbol c) ++ gaps)) ∧
    ∀ l' ∈ x.provenance, l'.before l ∧ ∃ y, c.item? l' = some y ∧ y.next? = none

theorem WellLinked.length_le (hc : rules.WellLinked c) (hx : c.item? l = some x)
    (hnone : x.next? = none) : x.provenance.length ≤ x.rule.rhs.countP rules.defines := by
  obtain ⟨⟨gaps, -, hperm⟩, -⟩ := hc l x hx hnone
  rw [List.countP_eq_length_filter, hperm.length_eq, List.length_append, List.length_map]
  exact Nat.le_add_right _ _

/-- The links that a row unfolds by lead to completed items. -/
theorem Unfolds.completed_of_mem (h : rules.Unfolds c i row links t) :
    ∀ l ∈ links, ∃ x, c.item? l = some x ∧ x.next? = none := by
  induction h with
  | nil =>
    intro l hl
    exact absurd hl List.not_mem_nil
  | leaf _ _ ih => exact ih
  | gap _ _ ih => exact ih
  | node hx _ hnone _ _ _ _ ih =>
    intro l hl
    rcases List.mem_cons.mp hl with rfl | hl
    · exact ⟨_, hx, hnone⟩
    · exact ih l hl

/-- The nonterminals of a row are those its links lead to and the nullable ones stepped over. -/
theorem Unfolds.exists_gaps (h : rules.Unfolds c i row links t) :
    ∃ gaps : Form, (∀ symbol ∈ gaps, rules.Derives [symbol] []) ∧
      (row.filter rules.defines).Perm (links.map (rootSymbol c) ++ gaps) := by
  induction h with
  | nil => exact ⟨[], fun _ h => absurd h List.not_mem_nil, List.Perm.refl []⟩
  | leaf hterminal _ ih =>
    rw [List.filter_cons_of_neg (by simp [hterminal])]
    exact ih
  | @gap _ symbol _ _ _ hnullable _ ih =>
    obtain ⟨gaps, hgaps, hperm⟩ := ih
    rw [List.filter_cons_of_pos (Nullable.defines_of_derives_nil hnullable)]
    exact ⟨symbol :: gaps, List.forall_mem_cons.mpr ⟨hnullable, hgaps⟩,
      (hperm.cons symbol).trans List.perm_middle.symm⟩
  | @node j k x row links u t hx hr _ _ _ _ _ ih =>
    obtain ⟨gaps, hgaps, hperm⟩ := ih
    have hroot : rootSymbol c ⟨j, k⟩ = x.rule.lhs := by rw [rootSymbol, hx]
    rw [List.filter_cons_of_pos (defines_iff.mpr ⟨x.rule, hr, rfl⟩), List.map_cons, hroot]
    exact ⟨gaps, hgaps, hperm.cons x.rule.lhs⟩

theorem wellLinked_chart (rules : Rules) (retention : Retention) (start : String)
    (input : List String) :
    rules.WellLinked (rules.chart rules.nullable retention start input) := by
  intro l x hx hnone
  have hmade := made_of_item? hx
  obtain ⟨t, hunfolds, -⟩ := hmade.exists_unfolds_rhs hnone
  exact ⟨hunfolds.exists_gaps, fun l' hl' =>
    ⟨(hmade.before_of_mem_provenance l' hl').1, hunfolds.completed_of_mem l' hl'⟩⟩

/-- The link leads to a completed item, with fewer than so many items before it. -/
def Leads (c : Chart) (depth : Nat) (l : Link) : Prop :=
  c.rank l < depth ∧ ∃ x, c.item? l = some x ∧ x.next? = none

theorem WellLinked.leads (hc : rules.WellLinked c) (hx : c.item? l = some x)
    (hnone : x.next? = none) (hrank : c.rank l < depth + 1) : ∀ l' ∈ x.provenance, Leads c depth l' := by
  intro l' hl'
  obtain ⟨hbefore, y, hy, hcompleted⟩ := (hc l x hx hnone).2 l' hl'
  have hlt := Chart.rank_lt_of_before hy hbefore
  exact ⟨by omega, y, hy, hcompleted⟩

/-! ### Trees are grown from the chart -/

/-- What stands below a node that carries an item, unfolded at most the given number of levels. -/
def children (rules : Rules) (c : Chart) (depth : Nat) (item : Item) : Forest :=
  if item.rule.isEmpty then .leaf "" .nil
  else rules.branches (rules.unfold c depth) item.rule.rhs item.provenance

theorem unfold_succ (hx : c.item? l = some x) (value : String) (rest : Forest) :
    rules.unfold c (depth + 1) value l rest =
      .node value l x.rule (rules.children c depth x) rest := by
  rw [unfold, hx]
  rfl

@[simp] theorem values_unfold (depth : Nat) (value : String) (l : Link) (rest : Forest) :
    (rules.unfold c depth value l rest).values = value :: rest.values := by
  cases depth with
  | zero => rfl
  | succ depth =>
    rw [unfold]
    cases c.item? l with
    | none => rfl
    | some item => rfl

/-- The trees over a row have its symbols as values. -/
@[simp] theorem values_branches (row : Form) (links : List Link) :
    (rules.branches (rules.unfold c depth) row links).values = row := by
  induction row generalizing links with
  | nil => rfl
  | cons symbol rest ih =>
    cases hdefines : rules.defines symbol with
    | false => rw [branches_terminal hdefines, Forest.values, ih]
    | true =>
      cases links with
      | nil => rw [branches_open hdefines, Forest.values, ih]
      | cons l links => rw [branches_linked hdefines, values_unfold, ih]

/-- A row over symbols with no more links than nonterminals is grown, and carries these links, if
that is so for each of the trees. -/
theorem grown_branches
    (hgrow : ∀ (value : String) (l : Link) (rest : Forest), Leads c depth l →
      rules.defines value = true → rest.Grown rules c →
        (rules.unfold c depth value l rest).Grown rules c ∧
          (rules.unfold c depth value l rest).links = l :: rest.links)
    (hlength : links.length ≤ row.countP rules.defines) (hleads : ∀ l ∈ links, Leads c depth l) :
    (rules.branches (rules.unfold c depth) row links).Grown rules c ∧
      (rules.branches (rules.unfold c depth) row links).links = links := by
  induction row generalizing links with
  | nil =>
    obtain rfl := List.eq_nil_of_length_eq_zero (Nat.le_zero.mp hlength)
    exact ⟨trivial, rfl⟩
  | cons symbol rest ih =>
    cases hdefines : rules.defines symbol with
    | false =>
      rw [List.countP_cons_of_neg (by simp [hdefines])] at hlength
      rw [branches_terminal hdefines]
      obtain ⟨hgrown, hlinks⟩ := ih hlength hleads
      exact ⟨⟨fun h => absurd (hdefines.symm.trans h) Bool.false_ne_true, hgrown⟩, hlinks⟩
    | true =>
      rw [List.countP_cons_of_pos hdefines] at hlength
      cases links with
      | nil =>
        rw [branches_open hdefines]
        obtain ⟨hgrown, hlinks⟩ := ih (Nat.zero_le _) hleads
        exact ⟨⟨fun _ => hlinks, hgrown⟩, hlinks⟩
      | cons l links =>
        rw [branches_linked hdefines]
        obtain ⟨hgrown, hlinks⟩ := ih (Nat.le_of_succ_le_succ hlength)
          fun l' hl' => hleads l' (List.mem_cons_of_mem _ hl')
        obtain ⟨hgrown', hlinks'⟩ := hgrow symbol l _ (hleads l List.mem_cons_self) hdefines hgrown
        exact ⟨hgrown', hlinks'.trans (congrArg (l :: ·) hlinks)⟩

/-- **Trees are grown from the chart.** -/
theorem grown_unfold (hc : rules.WellLinked c) (value : String) (l : Link) (rest : Forest)
    (hl : Leads c depth l) (hvalue : rules.defines value = true) (hrest : rest.Grown rules c) :
    (rules.unfold c depth value l rest).Grown rules c ∧
      (rules.unfold c depth value l rest).links = l :: rest.links := by
  induction depth generalizing value l rest with
  | zero => exact absurd hl.1 (Nat.not_lt_zero _)
  | succ depth ih =>
    obtain ⟨hrank, x, hx, hnone⟩ := hl
    obtain ⟨hgrown, hlinks⟩ := grown_branches ih (hc.length_le hx hnone) (hc.leads hx hnone hrank)
    rw [unfold_succ hx]
    refine ⟨⟨hvalue, ⟨x, hx, Item.isComplete_iff.mpr hnone, rfl, ?_⟩, ?_, hrest⟩, rfl⟩
    · rw [children]
      split
      · next hempty =>
        have hnil : x.provenance.length ≤ 0 := by
          simpa [Rule.isEmpty_iff.mp hempty] using hc.length_le hx hnone
        exact (List.eq_nil_of_length_eq_zero (Nat.le_zero.mp hnil)).symm
      · exact hlinks
    · rw [children]
      split
      · rfl
      · exact ⟨values_branches _ _, hgrown⟩

/-! ### Leaves of labelled trees

In a labelled row the links recognize the first nonterminals, so those that are left have to be the
ones that were stepped over. -/

theorem settled_branches
    (hgrow : ∀ (value : String) (l : Link) (rest : Forest), Leads c depth l →
      (rules.unfold c depth value l rest).Labelled → value = rootSymbol c l ∧ rest.Labelled ∧
        (rest.Settled rules → (rules.unfold c depth value l rest).Settled rules))
    {gaps : Form} (hgaps : ∀ symbol ∈ gaps, rules.Derives [symbol] [])
    (hperm : (row.filter rules.defines).Perm (links.map (rootSymbol c) ++ gaps))
    (hleads : ∀ l ∈ links, Leads c depth l)
    (hlabelled : (rules.branches (rules.unfold c depth) row links).Labelled) :
    (rules.branches (rules.unfold c depth) row links).Settled rules := by
  induction row generalizing links gaps with
  | nil => trivial
  | cons symbol rest ih =>
    cases hdefines : rules.defines symbol with
    | false =>
      rw [List.filter_cons_of_neg (by simp [hdefines])] at hperm
      rw [branches_terminal hdefines] at hlabelled ⊢
      exact ⟨Or.inl hdefines, ih hgaps hperm hleads hlabelled⟩
    | true =>
      rw [List.filter_cons_of_pos hdefines] at hperm
      cases links with
      | nil =>
        rw [branches_open hdefines] at hlabelled ⊢
        obtain ⟨hmem, hrest⟩ := List.cons_perm_iff_perm_erase.mp hperm
        refine ⟨Or.inr (hgaps symbol hmem), ?_⟩
        exact ih (fun s hs => hgaps s (List.mem_of_mem_erase hs)) hrest hleads hlabelled
      | cons l links =>
        rw [branches_linked hdefines] at hlabelled ⊢
        obtain ⟨rfl, hrest, hsettled⟩ := hgrow symbol l _ (hleads l List.mem_cons_self) hlabelled
        exact hsettled (ih hgaps hperm.cons_inv
          (fun l' hl' => hleads l' (List.mem_cons_of_mem _ hl')) hrest)

theorem settled_unfold (hc : rules.WellLinked c) (value : String) (l : Link) (rest : Forest)
    (hl : Leads c depth l) (hlabelled : (rules.unfold c depth value l rest).Labelled) :
    value = rootSymbol c l ∧ rest.Labelled ∧
      (rest.Settled rules → (rules.unfold c depth value l rest).Settled rules) := by
  induction depth generalizing value l rest with
  | zero => exact absurd hl.1 (Nat.not_lt_zero _)
  | succ depth ih =>
    obtain ⟨hrank, x, hx, hnone⟩ := hl
    obtain ⟨⟨gaps, hgaps, hperm⟩, -⟩ := hc l x hx hnone
    rw [unfold_succ hx] at hlabelled ⊢
    obtain ⟨hvalue, hchildren, hrest⟩ := hlabelled
    refine ⟨by rw [hvalue, rootSymbol, hx], hrest, fun hsettled => ⟨?_, hsettled⟩⟩
    rw [children] at hchildren ⊢
    split
    · rfl
    · next hempty =>
      rw [if_neg hempty] at hchildren
      exact settled_branches ih hgaps hperm (hc.leads hx hnone hrank) hchildren

/-! ### Trees of final items -/

theorem leads_of_final (hl : l ∈ c.finals start) : ∀ l' ∈ [l], Leads c c.size l' := by
  obtain ⟨-, x, hx, hspans⟩ := Chart.mem_finals.mp hl
  intro l' hl'
  obtain rfl := List.mem_singleton.mp hl'
  exact ⟨Chart.rank_lt_size hx, x, hx, (Item.spans_iff.mp hspans).2.2⟩

/-- The tree of a final item is the row over the start symbol. -/
theorem Unfolds.tree_eq_branches (h : rules.Unfolds c i [start] [l] t)
    (hl : l ∈ c.finals start) :
    rules.tree c l = rules.branches (rules.unfold c c.size) [start] [l] := by
  obtain ⟨-, x, hx, hspans⟩ := Chart.mem_finals.mp hl
  have hroot : rootSymbol c l = start := by rw [rootSymbol, hx]; exact (Item.spans_iff.mp hspans).1
  have hdefines : rules.defines start = true := by
    by_contra hterminal
    have hlength := h.length_le
    simp [hterminal] at hlength
  rw [tree, hroot, branches_linked hdefines]
  rfl

end Rules

end ContextFree
