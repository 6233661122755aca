import ContextFree.Chart
import ContextFree.Forest

/-!
# Unfolding the items of a chart

The provenance of an item names the items behind its nonterminals, so a completed item unfolds into
a tree. The links are used up from left to right by the nonterminals of the right side; once they
are used up, the nonterminals that are left become leaves, as terminals do. An empty rule has one
leaf without text below it. A link in a filled chart points to an item made earlier, so a path of a
tree is never longer than the chart has items.

## Main definitions

* `ContextFree.Rules.branches` - the children of a node.
* `ContextFree.Rules.tree` - the tree of the item at a link.
-/

namespace ContextFree

namespace Rules

/-- The trees for a row of symbols, given how to put the tree of a linked nonterminal in front of a
row. -/
def branches (rules : Rules) (grow : String → Link → Forest → Forest) :
    List String → List Link → Forest
  | [], _ => .nil
  | symbol :: rest, links =>
    if rules.defines symbol then
      match links with
      | [] => .leaf symbol (rules.branches grow rest [])
      | l :: links => grow symbol l (rules.branches grow rest links)
    else .leaf symbol (rules.branches grow rest links)

section

variable {rules : Rules} {grow : String → Link → Forest → Forest} {symbol : String}

/-- A terminal becomes a leaf and uses no link. -/
theorem branches_terminal (h : rules.defines symbol = false) (rest : List String)
    (links : List Link) :
    rules.branches grow (symbol :: rest) links = .leaf symbol (rules.branches grow rest links) := by
  rw [branches.eq_def]
  simp only [h, Bool.false_eq_true, if_false]

/-- Once the links are used up, nonterminals become leaves. -/
theorem branches_open (h : rules.defines symbol = true) (rest : List String) :
    rules.branches grow (symbol :: rest) [] = .leaf symbol (rules.branches grow rest []) := by
  rw [branches.eq_def]
  simp only [h, if_true]

/-- A nonterminal uses the next link. -/
theorem branches_linked (h : rules.defines symbol = true) (rest : List String) (l : Link)
    (links : List Link) :
    rules.branches grow (symbol :: rest) (l :: links) =
      grow symbol l (rules.branches grow rest links) := by
  rw [branches.eq_def]
  simp only [h, if_true]

end

/-- Put the tree of a linked item in front of a row, unfolding at most the given number of levels. -/
def unfold (rules : Rules) (c : Chart) : Nat → String → Link → Forest → Forest
  | 0, value, _, rest => .leaf value rest
  | depth + 1, value, l, rest =>
    match c.item? l with
    | none => .leaf value rest
    | some item =>
      let children :=
        if item.rule.isEmpty then .leaf "" .nil
        else rules.branches (rules.unfold c depth) item.rule.rhs item.provenance
      .node value l item.rule children rest

/-- The symbol that the item at a link recognizes. -/
def rootSymbol (c : Chart) (l : Link) : String :=
  match c.item? l with
  | none => ""
  | some item => item.rule.lhs

/-- The tree of the item at a link. -/
def tree (rules : Rules) (c : Chart) (l : Link) : Forest :=
  rules.unfold c c.size (rootSymbol c l) l .nil

end Rules

end ContextFree
