import ContextFree.State

/-!
# Charts

A chart holds one state for each input position that recognition has reached, beginning with
position zero. It is read through links.

## Main definitions

* `ContextFree.Chart` - the states of an input, and the retention they were filled with.
* `ContextFree.Chart.item?` - the item at a link.
* `ContextFree.Chart.finals` - the completed items of a symbol that span the input.
-/

namespace ContextFree

/-- The states of the input positions reached so far. -/
structure Chart where
  /-- How many copies of a cell each state keeps. -/
  retention : Retention
  /-- The states, by position. -/
  states : List State
deriving Repr, Inhabited

/-- The item recognizes a symbol, from the beginning of the input to the position it is found at. -/
def Item.spans (item : Item) (symbol : String) : Bool :=
  item.rule.lhs == symbol && item.start == 0 && item.isComplete

namespace Chart

/-- The chart before anything is recognized: one state without items. -/
def blank (retention : Retention) : Chart := ⟨retention, [.empty retention]⟩

/-- The number of positions reached. -/
def length (c : Chart) : Nat := c.states.length

/-- The number of items in each state. -/
def sizes (c : Chart) : List Nat := c.states.map State.size

/-- The number of items in all states. -/
def size (c : Chart) : Nat := State.total c.states

/-- The state of a position. -/
def state? (c : Chart) (position : Nat) : Option State := c.states[position]?

/-- The item at a link. -/
def item? (c : Chart) (l : Link) : Option Item :=
  (c.state? l.position).bind fun s => s.get? l.index

/-- The links of the completed items of a symbol that run from the first to the last state. -/
def finals (c : Chart) (symbol : String) : List Link :=
  match c.states.getLast? with
  | none => []
  | some last =>
    (last.items.zipIdx.filter fun entry => entry.1.spans symbol).map fun entry =>
      ⟨c.length - 1, entry.2⟩

end Chart

end ContextFree
