import ContextFree.Chart
import ContextFree.LeftRecursion

/-!
# Filling a chart

Recognition goes from left to right. The state of a position begins with a kernel: the rules of the
start symbol at position zero, and at every later position the items that moved their dot over the
token just read. A state is closed by walking over its items while they grow in number, each item
offering further ones.

* A completed item offers every item that waited for its left side where it began, advanced and
  linked to it.
* An item before a nonterminal offers the rules of that nonterminal, begun here, and itself advanced
  over the nonterminal without a link if that is nullable. A nullable symbol may be completed before
  the items that wait for it are there; stepping over it makes up for that.
* An item before a terminal offers nothing here and waits for the next token.

The walk ends because a state has room for finitely many items: a cell is a rule with a dot and a
start that lies at or before the position, and it holds only so many copies.

## Main definitions

* `ContextFree.Rules.offers` - what one item adds to its own state.
* `ContextFree.Rules.close` - the walk over a state.
* `ContextFree.Rules.scanned` - the kernel of the next state.
* `ContextFree.Rules.chart` - the filled chart of an input.
-/

namespace ContextFree

namespace Rules

/-- The items that wait for a symbol, advanced over it by the completed item at a link. -/
def completions (waiting : List Item) (symbol : String) (l : Link) : List Item :=
  (waiting.filter fun parent => parent.next? == some symbol).map fun parent =>
    (parent.advance .complete).link l

/-- The rules of a symbol begun at a position, and the item that expects the symbol advanced over it
if the symbol is nullable. -/
def predictions (rules : Rules) (n : Nullable) (item : Item) (symbol : String) (position : Nat) :
    List Item :=
  (rules.of symbol).map (Item.predicted · position) ++
    if n.contains symbol then [item.advance .complete] else []

/-- What the item at an index of the newest state offers to that state, given the states before. -/
def offers (rules : Rules) (n : Nullable) (earlier : List State) (here : State) (index : Nat)
    (item : Item) : List Item :=
  match item.next? with
  | none =>
    let origin := earlier[item.start]?.getD here
    completions origin.items item.rule.lhs ⟨earlier.length, index⟩
  | some symbol =>
    if rules.defines symbol then rules.predictions n item symbol earlier.length else []

/-- Walk over the items of the newest state from an index on, inserting what they offer, for at most
the given number of items. -/
def walk (rules : Rules) (n : Nullable) (earlier : List State) : Nat → Nat → State → State
  | 0, _, here => here
  | bound + 1, index, here =>
    match here.get? index with
    | none => here
    | some item =>
      walk rules n earlier bound (index + 1)
        (here.insertAll (rules.offers n earlier here index item))

/-- The number of places for a dot in the rules. -/
def dots : Rules → Nat
  | [] => 0
  | r :: rest => r.rhs.length + 1 + dots rest

/-- The most items that a state can hold at a position. -/
def room (rules : Rules) (retention : Retention) (position : Nat) : Nat :=
  retention.copies * rules.dots * (position + 1)

/-- The newest state with everything that its items offer, directly or through others. -/
def close (rules : Rules) (n : Nullable) (earlier : List State) (here : State) : State :=
  rules.walk n earlier (rules.room here.retention earlier.length) 0 here

/-- The items of a closed state that move over a token; a nonterminal is no token. -/
def scanned (rules : Rules) (here : State) (token : String) : List Item :=
  if rules.defines token then []
  else (here.items.filter fun item => item.next? == some token).map (·.advance .scan)

/-- The states from the newest one on: close it, read a token, go on while an item moves. -/
def fillFrom (rules : Rules) (n : Nullable) (earlier : List State) (kernel : State) :
    List String → List State
  | [] => earlier ++ [rules.close n earlier kernel]
  | token :: rest =>
    let here := rules.close n earlier kernel
    match rules.scanned here token with
    | [] => earlier ++ [here]
    | moved =>
      fillFrom rules n (earlier ++ [here]) ((State.empty kernel.retention).insertAll moved) rest

/-- The kernel of the first state: the rules of the start symbol, begun at position zero. -/
def seed (rules : Rules) (retention : Retention) (start : String) : State :=
  (State.empty retention).insertAll ((rules.of start).map (Item.predicted · 0))

/-- The chart of an input, filled as far as the input can be followed. -/
def chart (rules : Rules) (n : Nullable) (retention : Retention) (start : String)
    (input : List String) : Chart :=
  ⟨retention, rules.fillFrom n [] (rules.seed retention start) input⟩

/-- The retention that a rule list calls for. -/
def retention (rules : Rules) (n : Nullable) : Retention :=
  .ofLeftRecursive (rules.leftRecursive n)

end Rules

end ContextFree
