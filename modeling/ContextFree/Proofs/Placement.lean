import ContextFree.Proofs.Growing

/-!
# Where the items of a tree stand

The links of an item go to the first nonterminals of its rule. If a nonterminal was stepped over,
the links of those after it move up: a node may carry the item of another symbol, the symbol whose
item it is stays a bare leaf, nullable or not, and the leaves are found in another order.

What a tree spells does not depend on places but for the order: the terminals among the leaves are
the tokens that were read. The places are right as well wherever the symbols that were stepped over
come last, so that no link can move up. Where no nullable symbol stands before another nonterminal
in any rule, all trees are like that.

## Main definitions

* `ContextFree.Forest.spells` - the frontier without erased symbols.
* `ContextFree.Forest.Placed` - a row of trees is a parse of tokens, but for nullable symbols.
* `ContextFree.Sketch.GapsLast` - symbols that were stepped over come last.
* `ContextFree.Rules.NullablesLast` - nullable symbols come last in every rule.

## Main results

* `ContextFree.Rules.Unfolds.spells_perm` - trees spell the tokens in some order.
* `ContextFree.Rules.Unfolds.placed` - they are right where gaps come last.
* `ContextFree.Rules.trees_placed` - the trees of final items.
* `ContextFree.Rules.skipped_symbol_misplaced` - a tree in which an item stands at the wrong symbol.
-/

namespace ContextFree

namespace Forest

/-- The frontier without the leaves of empty rules and the leaves that are to be left out. -/
def spells (out : String → Bool) : Forest → List String
  | nil => []
  | leaf value rest => if out value then rest.spells out else value :: rest.spells out
  | node _ _ rule children rest =>
    (if rule.isEmpty then [] else children.spells out) ++ rest.spells out

/-- A row of trees is a parse of tokens, but for the nullable symbols it leaves open. -/
structure Placed (rules : Rules) (f : Forest) (tokens : List String) : Prop where
  /-- Items stand at their left sides. -/
  labelled : f.Labelled
  /-- No other symbols are left open. -/
  settled : f.Settled rules
  /-- The tokens are spelled in order. -/
  spells_eq : f.spells rules.nullable.contains = tokens

end Forest

/-- The tokens that the states of a chart have read. -/
def Chart.read (c : Chart) (input : List String) : List String := input.take (c.length - 1)

theorem eq_nil_of_append_eq_singleton {front back : Form} {symbol s : String}
    (h : front ++ symbol :: back = [s]) : back = [] := by
  rcases List.append_eq_singleton_iff.mp h with ⟨-, h⟩ | ⟨-, h⟩
  · exact (List.cons.inj h).2
  · exact absurd h (List.cons_ne_nil _ _)

/-! ### Symbols left open come last -/

namespace Sketch

/-- No tree of the row is the tree of a rule. -/
def Nodeless : Sketch → Prop
  | nil => True
  | leaf _ rest => rest.Nodeless
  | gap _ rest => rest.Nodeless
  | node _ _ _ => False

/-- In every row the symbols that are left open come after the trees of rules. -/
def GapsLast : Sketch → Prop
  | nil => True
  | leaf _ rest => rest.GapsLast
  | gap _ rest => rest.Nodeless ∧ rest.GapsLast
  | node _ children rest => children.GapsLast ∧ rest.GapsLast

/-- Above terminals there are no trees of rules. -/
theorem Valid.nodeless {rules : Rules} {t : Sketch} (ht : t.Valid rules)
    (hroots : rules.IsTerminal t.roots) : t.Nodeless := by
  induction t with
  | nil => trivial
  | leaf symbol rest ih => exact ih ht.2 fun s hs => hroots s (List.mem_cons_of_mem _ hs)
  | gap symbol rest ih => exact ih ht.2 fun s hs => hroots s (List.mem_cons_of_mem _ hs)
  | node rule children rest => exact absurd List.mem_cons_self (hroots.lhs_not_mem ht.1)

end Sketch

namespace Rules

variable {rules : Rules} {c : Chart} {start : String} {input : List String} {l : Link} {x : Item}
  {retention : Retention} {t : Sketch} {i depth : Nat} {row : Form} {links : List Link}

/-- In no rule a nullable symbol stands before another nonterminal. -/
def NullablesLast (rules : Rules) : Prop :=
  ∀ r ∈ rules, ∀ (front back : Form) (symbol : String), r.rhs = front ++ symbol :: back →
    rules.Derives [symbol] [] → rules.IsTerminal back

/-- Where nullable symbols come last in the rules, symbols left open come last in all trees. -/
theorem NullablesLast.gapsLast (h : rules.NullablesLast) (ht : t.Valid rules)
    (hroots : ∀ front back symbol, t.roots = front ++ symbol :: back →
      rules.Derives [symbol] [] → rules.IsTerminal back) : t.GapsLast := by
  induction t with
  | nil => trivial
  | leaf symbol rest ih =>
    exact ih ht.2 fun front back s hs => hroots (symbol :: front) back s (congrArg _ hs)
  | gap symbol rest ih =>
    refine ⟨ht.2.nodeless (hroots [] rest.roots symbol rfl ht.1), ih ht.2 fun front back s hs => ?_⟩
    exact hroots (symbol :: front) back s (congrArg _ hs)
  | node rule children rest ihc ih =>
    obtain ⟨hr, hchildren, hvalidc, hvalidr⟩ := ht
    refine ⟨ihc hvalidc fun front back s hs => h rule hr front back s (hchildren ▸ hs),
      ih hvalidr fun front back s hs => ?_⟩
    exact hroots (rule.lhs :: front) back s (congrArg _ hs)

/-! ### What a tree spells -/

/-- What the tree at a link spells, with nonterminals left out. -/
def spelledBelow (rules : Rules) (c : Chart) (depth : Nat) (l : Link) : List String :=
  (rules.unfold c depth "" l .nil).spells rules.defines

theorem spells_unfold (hl : Leads c depth l) (value : String) (rest : Forest) :
    (rules.unfold c depth value l rest).spells rules.defines =
      rules.spelledBelow c depth l ++ rest.spells rules.defines := by
  obtain ⟨hrank, x, hx, -⟩ := hl
  cases depth with
  | zero => exact absurd hrank (Nat.not_lt_zero _)
  | succ depth =>
    rw [spelledBelow, unfold_succ hx, unfold_succ hx]
    simp [Forest.spells]

/-- A row spells its terminals and what its trees spell, in some order. -/
theorem spells_branches_perm (hlength : links.length ≤ row.countP rules.defines)
    (hleads : ∀ l ∈ links, Leads c depth l) :
    ((rules.branches (rules.unfold c depth) row links).spells rules.defines).Perm
      (row.filter (!rules.defines ·) ++ links.flatMap (rules.spelledBelow c depth)) := by
  induction row generalizing links with
  | nil =>
    obtain rfl := List.eq_nil_of_length_eq_zero (Nat.le_zero.mp hlength)
    exact List.Perm.refl []
  | cons symbol rest ih =>
    cases hdefines : rules.defines symbol with
    | false =>
      rw [List.countP_cons_of_neg (by simp [hdefines])] at hlength
      rw [List.filter_cons_of_pos (by simp [hdefines]), branches_terminal hdefines, Forest.spells,
        hdefines, if_neg Bool.false_ne_true]
      exact (ih hlength hleads).cons symbol
    | true =>
      rw [List.countP_cons_of_pos hdefines] at hlength
      rw [List.filter_cons_of_neg (by simp [hdefines])]
      cases links with
      | nil =>
        rw [branches_open hdefines, Forest.spells, hdefines, if_pos rfl]
        exact ih (Nat.zero_le _) hleads
      | cons l links =>
        have hrest := ih (Nat.le_of_succ_le_succ hlength)
          fun l' hl' => hleads l' (List.mem_cons_of_mem _ hl')
        rw [branches_linked hdefines, spells_unfold (hleads l List.mem_cons_self),
          List.flatMap_cons]
        refine (hrest.append_left _).trans (List.perm_iff_count.mpr fun a => ?_)
        simp only [List.count_append]
        omega

theorem spells_below_perm (hc : rules.WellLinked c) (hx : c.item? l = some x)
    (hnone : x.next? = none) (hrank : c.rank l < depth + 1) :
    (rules.spelledBelow c (depth + 1) l).Perm
      (x.rule.rhs.filter (!rules.defines ·) ++
        x.provenance.flatMap (rules.spelledBelow c depth)) := by
  have hlength := hc.length_le hx hnone
  rw [spelledBelow, unfold_succ hx, Forest.spells, Forest.spells, List.append_nil, children]
  split
  · next hempty =>
    rw [Rule.isEmpty_iff.mp hempty] at hlength ⊢
    rw [List.eq_nil_of_length_eq_zero (Nat.le_zero.mp hlength)]
    exact List.Perm.refl []
  · exact spells_branches_perm hlength (hc.leads hx hnone hrank)

namespace Unfolds

/-- **A tree spells the tokens of its item in some order**, each as often as they do. -/
theorem spells_perm (hc : rules.WellLinked c) (h : rules.Unfolds c i row links t) :
    ∀ depth, (∀ l ∈ links, c.rank l < depth) →
      t.yield.Perm
        (row.filter (!rules.defines ·) ++ links.flatMap (rules.spelledBelow c depth)) := by
  induction h with
  | nil => exact fun _ _ => List.Perm.refl []
  | @leaf _ symbol _ _ _ hterminal _ ih =>
    intro depth hdepth
    rw [List.filter_cons_of_pos (by simp [hterminal])]
    exact (ih depth hdepth).cons symbol
  | gap hnullable _ ih =>
    intro depth hdepth
    rw [List.filter_cons_of_neg (by simp [Nullable.defines_of_derives_nil hnullable])]
    exact ih depth hdepth
  | @node j k x row links u t hx hr hnone _ _ _ ihbelow ih =>
    intro depth hdepth
    have hdefines : rules.defines x.rule.lhs = true := defines_iff.mpr ⟨x.rule, hr, rfl⟩
    have hrank : c.rank ⟨j, k⟩ < depth := hdepth ⟨j, k⟩ List.mem_cons_self
    obtain ⟨less, rfl⟩ := Nat.exists_eq_add_one_of_ne_zero (Nat.ne_zero_of_lt hrank)
    have hbelow := (ihbelow less fun l' hl' => (hc.leads hx hnone hrank l' hl').1).trans
      (spells_below_perm hc hx hnone hrank).symm
    have hrest := ih _ fun l hl => hdepth l (List.mem_cons_of_mem _ hl)
    rw [Sketch.yield, List.filter_cons_of_neg (by simp [hdefines]), List.flatMap_cons]
    refine (hbelow.append hrest).trans (List.perm_iff_count.mpr fun a => ?_)
    simp only [List.count_append]
    omega

theorem links_eq_nil (h : rules.Unfolds c i row links t) (ht : t.Nodeless) : links = [] := by
  induction h with
  | nil => rfl
  | leaf _ _ ih => exact ih ht
  | gap _ _ ih => exact ih ht
  | node => exact absurd ht id

/-- **Where gaps come last, the items stand in their places**: nodes at their left sides, nullable
symbols at the leaves, and the tokens in order. -/
theorem placed (hc : rules.WellLinked c) (h : rules.Unfolds c i row links t) (ht : t.GapsLast) :
    ∀ depth, (∀ l ∈ links, c.rank l < depth) →
      (rules.branches (rules.unfold c depth) row links).Placed rules t.yield := by
  induction h with
  | nil => exact fun _ _ => ⟨trivial, trivial, rfl⟩
  | @leaf _ symbol _ _ _ hterminal _ ih =>
    intro depth hdepth
    obtain ⟨hlabelled, hsettled, hspells⟩ := ih ht depth hdepth
    have hnot := Nullable.contains_eq_false_of_defines hterminal
    rw [branches_terminal hterminal]
    refine ⟨hlabelled, ⟨Or.inl hterminal, hsettled⟩, ?_⟩
    rw [Forest.spells, hnot, if_neg Bool.false_ne_true, hspells, Sketch.yield]
  | @gap _ symbol _ _ _ hnullable hrest ih =>
    intro depth hdepth
    obtain ⟨hlabelled, hsettled, hspells⟩ := ih ht.2 depth hdepth
    obtain rfl := hrest.links_eq_nil ht.1
    rw [branches_open (Nullable.defines_of_derives_nil hnullable)]
    refine ⟨hlabelled, ⟨Or.inr hnullable, hsettled⟩, ?_⟩
    rw [Forest.spells, Nullable.contains_nullable_iff.mpr hnullable, if_pos rfl, hspells,
      Sketch.yield]
  | @node j k x row links u t hx hr hnone hbelow _ _ ihbelow ih =>
    intro depth hdepth
    have hdefines : rules.defines x.rule.lhs = true := defines_iff.mpr ⟨x.rule, hr, rfl⟩
    have hrank : c.rank ⟨j, k⟩ < depth := hdepth ⟨j, k⟩ List.mem_cons_self
    obtain ⟨less, rfl⟩ := Nat.exists_eq_add_one_of_ne_zero (Nat.ne_zero_of_lt hrank)
    obtain ⟨hlabelled, hsettled, hspells⟩ :=
      ih ht.2 _ fun l hl => hdepth l (List.mem_cons_of_mem _ hl)
    obtain ⟨hlabelled', hsettled', hspells'⟩ :=
      ihbelow ht.1 less fun l' hl' => (hc.leads hx hnone hrank l' hl').1
    rw [branches_linked hdefines, unfold_succ hx, children]
    cases hempty : x.rule.isEmpty with
    | true =>
      have hnil : u = .nil :=
        Sketch.eq_nil_of_roots (hbelow.roots.trans (Rule.isEmpty_iff.mp hempty))
      simp only [if_true]
      refine ⟨⟨rfl, trivial, hlabelled⟩, ⟨by rw [hempty, if_pos rfl], hsettled⟩, ?_⟩
      rw [Forest.spells, hempty, if_pos rfl, hspells, hnil, Sketch.yield, Sketch.yield]
    | false =>
      simp only [Bool.false_eq_true, if_false]
      refine ⟨⟨rfl, hlabelled', hlabelled⟩, ⟨by rwa [hempty, if_neg Bool.false_ne_true], hsettled⟩,
        ?_⟩
      rw [Forest.spells, hempty, if_neg Bool.false_ne_true, hspells, hspells', Sketch.yield]

end Unfolds

/-! ### Trees of final items -/

/-- A final item unfolds into a sketch of the tokens that were read. -/
theorem exists_unfolds_of_final
    (hl : l ∈ (rules.chart rules.nullable retention start input).finals start) :
    ∃ t, rules.Unfolds (rules.chart rules.nullable retention start input) 0 [start] [l] t ∧
      t.yield = (rules.chart rules.nullable retention start input).read input := by
  obtain ⟨hlast, x, hx, hspans⟩ := Chart.mem_finals.mp hl
  obtain ⟨hlhs, hzero, hnone⟩ := Item.spans_iff.mp hspans
  have hmade := made_of_item? hx
  have hposition : l.position = (rules.chart rules.nullable retention start input).length - 1 := by
    omega
  obtain ⟨t, hunfolds, hyield⟩ := hmade.exists_unfolds_rhs hnone
  have hended : x.start + t.yield.length = l.position := by
    rw [hyield, length_piece hmade.start_le hmade.recognizes.position_le]
  have hnode := Unfolds.node hx hmade.rule_mem hnone hunfolds hended .nil
  rw [hzero, hlhs] at hnode
  refine ⟨_, hnode, ?_⟩
  rw [Sketch.yield, Sketch.yield, List.append_nil, hyield, hzero, piece_zero, hposition, Chart.read]

/-- The tree of a final item is a parse, if the symbols stepped over come last. -/
theorem Unfolds.placed_tree (hc : rules.WellLinked c) (hl : l ∈ c.finals start)
    (h : rules.Unfolds c i [start] [l] t) (ht : t.GapsLast) :
    (rules.tree c l).Placed rules t.yield := by
  rw [h.tree_eq_branches hl]
  exact h.placed hc ht c.size fun l' hl' => (leads_of_final hl l' hl').1

/-- **The trees of final items** are grown from the chart at the item and the start symbol, and
spell the tokens that were read in some order. If the items of a tree stand at their left sides,
only nullable symbols are left open. If the links can be read such that the symbols stepped over
come last in every row, the tree is a parse of the tokens but for these symbols, and where nullable
symbols come last in the rules, all trees are. -/
theorem trees_placed (rules : Rules) (start : String) (input : List String)
    (retention : Retention) :
    let c := rules.chart rules.nullable retention start input
    (∀ l ∈ c.finals start,
      ((rules.tree c l).Grown rules c ∧ (rules.tree c l).values = [start] ∧
        (rules.tree c l).links = [l]) ∧
      ((rules.tree c l).spells rules.defines).Perm (c.read input) ∧
      ((rules.tree c l).Labelled → (rules.tree c l).Settled rules) ∧
      ∀ t, rules.Unfolds c 0 [start] [l] t → t.yield = c.read input → t.GapsLast →
        (rules.tree c l).Placed rules (c.read input)) ∧
    (rules.NullablesLast →
      ∀ l ∈ c.finals start, (rules.tree c l).Placed rules (c.read input)) := by
  intro c
  have hc : rules.WellLinked c := wellLinked_chart rules retention start input
  refine ⟨fun l hl => ?_, fun hnullables l hl => ?_⟩
  · obtain ⟨t, hunfolds, hyield⟩ := exists_unfolds_of_final hl
    obtain ⟨gaps, hgaps, hperm⟩ := hunfolds.exists_gaps
    have hleads := leads_of_final hl
    have htree := hunfolds.tree_eq_branches hl
    have hgrown := grown_branches (grown_unfold hc) hunfolds.length_le hleads
    have hspells := spells_branches_perm hunfolds.length_le hleads
    rw [← htree] at hgrown hspells
    refine ⟨⟨hgrown.1, by rw [htree, values_branches], hgrown.2⟩, ?_, ?_,
      fun t hunfolds hyield hlast => hyield ▸ hunfolds.placed_tree hc hl hlast⟩
    · rw [← hyield]
      exact hspells.trans (hunfolds.spells_perm hc c.size fun l' hl' => (hleads l' hl').1).symm
    · rw [htree]
      exact settled_branches (settled_unfold hc) hgaps hperm hleads
  · obtain ⟨t, hunfolds, hyield⟩ := exists_unfolds_of_final hl
    refine hyield ▸ hunfolds.placed_tree hc hl (hnullables.gapsLast hunfolds.valid ?_)
    intro front back symbol hrow _
    exact eq_nil_of_append_eq_singleton (hrow.symm.trans hunfolds.roots) ▸ IsTerminal.nil rules

/-- Rules under which the last symbol is stepped over. -/
def endsOpen : Rules := [⟨"S", ["b", "A"]⟩, ⟨"A", []⟩]

/-- A tree that leaves the last symbol open spells the input. -/
theorem last_symbol_left_open :
    endsOpen.NullablesLast ∧
      ∃ l ∈ (endsOpen.chart endsOpen.nullable .strict "S" ["b"]).finals "S",
        endsOpen.tree (endsOpen.chart endsOpen.nullable .strict "S" ["b"]) l =
            .node "S" l ⟨"S", ["b", "A"]⟩ (.leaf "b" (.leaf "A" .nil)) .nil ∧
          (endsOpen.tree (endsOpen.chart endsOpen.nullable .strict "S" ["b"]) l).Placed endsOpen
            ["b"] := by
  have hlast : endsOpen.NullablesLast := by
    intro r hr front back symbol hrhs hnullable
    have hdefines : endsOpen.defines symbol = true := Nullable.defines_of_derives_nil hnullable
    rcases List.mem_pair.mp hr with rfl | rfl
    · cases front with
      | nil =>
        obtain ⟨rfl, -⟩ := List.cons.inj hrhs
        exact absurd hdefines (by decide)
      | cons _ front =>
        have hone : front ++ symbol :: back = ["A"] := (List.cons.inj hrhs).2.symm
        exact (eq_nil_of_append_eq_singleton hone) ▸ IsTerminal.nil endsOpen
    · exact absurd hrhs.symm (by simp)
  have hfound : ∃ l ∈ (endsOpen.chart endsOpen.nullable .strict "S" ["b"]).finals "S",
      endsOpen.tree (endsOpen.chart endsOpen.nullable .strict "S" ["b"]) l =
        .node "S" l ⟨"S", ["b", "A"]⟩ (.leaf "b" (.leaf "A" .nil)) .nil := by
    decide +kernel
  obtain ⟨l, hl, htree⟩ := hfound
  exact ⟨hlast, l, hl, htree, (trees_placed endsOpen "S" ["b"] .strict).2 hlast l hl⟩

/-- Rules under which a symbol is stepped over before another one. -/
def stepsOver : Rules := [⟨"S", ["A", "B"]⟩, ⟨"A", []⟩, ⟨"B", ["b"]⟩]

/-- Rules for one letter. -/
def oneLetter : Rules := [⟨"S", ["a"]⟩]

/-- The item of another symbol may stand where a symbol was stepped over, while the other is left
open. Where the input is not read to its end, the tokens of a tree end with what was read. -/
theorem skipped_symbol_misplaced :
    (∃ l ∈ (stepsOver.chart stepsOver.nullable .strict "S" ["b"]).finals "S",
      stepsOver.tree (stepsOver.chart stepsOver.nullable .strict "S" ["b"]) l =
        .node "S" l ⟨"S", ["A", "B"]⟩
          (.node "A" ⟨1, 0⟩ ⟨"B", ["b"]⟩ (.leaf "b" .nil) (.leaf "B" .nil)) .nil ∧
      ¬ (stepsOver.tree (stepsOver.chart stepsOver.nullable .strict "S" ["b"]) l).Labelled ∧
      ¬ (stepsOver.tree (stepsOver.chart stepsOver.nullable .strict "S" ["b"]) l).Settled
        stepsOver ∧
      (stepsOver.tree (stepsOver.chart stepsOver.nullable .strict "S" ["b"]) l).spells
        stepsOver.nullable.contains = ["b", "B"]) ∧
    ∃ l ∈ (oneLetter.chart oneLetter.nullable .strict "S" ["a", "b"]).finals "S",
      (oneLetter.tree (oneLetter.chart oneLetter.nullable .strict "S" ["a", "b"]) l).spells
        oneLetter.nullable.contains = ["a"] := by
  have hdefines : stepsOver.defines "B" = true := by decide
  have hopen : ¬ stepsOver.Derives ["B"] [] := fun h =>
    absurd (Nullable.contains_nullable_iff.mpr h) (by decide +kernel)
  have hfound : ∃ l ∈ (stepsOver.chart stepsOver.nullable .strict "S" ["b"]).finals "S",
      stepsOver.tree (stepsOver.chart stepsOver.nullable .strict "S" ["b"]) l =
        .node "S" l ⟨"S", ["A", "B"]⟩
          (.node "A" ⟨1, 0⟩ ⟨"B", ["b"]⟩ (.leaf "b" .nil) (.leaf "B" .nil)) .nil := by
    decide +kernel
  obtain ⟨l, hl, htree⟩ := hfound
  refine ⟨⟨l, hl, htree, ?_, ?_, ?_⟩, by decide +kernel⟩
  · rw [htree]
    simp [Forest.Labelled]
  · rw [htree]
    simp [Forest.Settled, Rule.isEmpty, hdefines, hopen]
  · rw [htree]
    rfl

end Rules

end ContextFree
