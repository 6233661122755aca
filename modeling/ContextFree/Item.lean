import ContextFree.Rule

/-!
# Chart items

An item is a rule with a dot in its right side and the position where its recognition began. It
says that the symbols before the dot have been recognized since then. Its provenance names the
completed items that stand for the nonterminals before the dot, left to right; a nonterminal that
was stepped over because it is nullable has no entry.

## Main definitions

* `ContextFree.Link` - the place of an item in a chart.
* `ContextFree.Item` - a dotted rule with its start and provenance.
* `ContextFree.Item.sameCell` - two items that differ at most in how they came about.
-/

namespace ContextFree

/-- The place of an item: the state it is in and its index there. -/
structure Link where
  /-- The input position whose state holds the item. -/
  position : Nat
  /-- The index of the item in that state. -/
  index : Nat
deriving DecidableEq, Repr, Inhabited

/-- Links are ordered as the items are made: by position, then by index. -/
def Link.before (a b : Link) : Prop :=
  a.position < b.position ∨ a.position = b.position ∧ a.index < b.index

/-- What made an item. -/
inductive Action where
  /-- The item opens a rule. -/
  | predict
  /-- The dot moved over a token of the input. -/
  | scan
  /-- The dot moved over a nonterminal. -/
  | complete
deriving DecidableEq, Repr, Inhabited

/-- A rule with a dot, the position where it began, and where its nonterminals were found. -/
structure Item where
  /-- The rule being recognized. -/
  rule : Rule
  /-- The number of symbols before the dot. -/
  dot : Nat
  /-- The position where recognition of the rule began. -/
  start : Nat
  /-- What made the item. -/
  action : Action
  /-- The completed items behind the nonterminals before the dot. -/
  provenance : List Link
deriving DecidableEq, Repr, Inhabited

namespace Item

/-- A rule about to be recognized from a position on. -/
def predicted (rule : Rule) (start : Nat) : Item :=
  ⟨rule, 0, start, .predict, []⟩

/-- The item with the dot moved over one symbol. -/
def advance (item : Item) (action : Action) : Item :=
  { item with dot := item.dot + 1, action }

/-- The item with one more completed item in its provenance. -/
def link (item : Item) (l : Link) : Item :=
  { item with provenance := item.provenance ++ [l] }

/-- The symbol after the dot, if there is one. -/
def next? (item : Item) : Option String := item.rule.rhs[item.dot]?

/-- Nothing is left after the dot. -/
def isComplete (item : Item) : Bool := decide (item.rule.rhs.length ≤ item.dot)

theorem isComplete_iff {item : Item} : item.isComplete = true ↔ item.next? = none := by
  simp [isComplete, next?]

/-- With the dot at the end of the rule, nothing comes next. -/
theorem next?_eq_none {item : Item} (h : item.dot = item.rule.rhs.length) : item.next? = none :=
  List.getElem?_eq_none_iff.mpr (Nat.le_of_eq h.symm)

/-! ### Cells -/

/-- Two items lie in one cell when they agree in rule, dot and start. -/
def sameCell (a b : Item) : Bool :=
  a.dot == b.dot && a.start == b.start && a.rule == b.rule

/-- Two items in one cell are copies of each other when they came about the same way. -/
def sameCopy (a b : Item) : Bool :=
  a.sameCell b && a.provenance == b.provenance

theorem sameCell_iff {a b : Item} :
    a.sameCell b = true ↔ a.dot = b.dot ∧ a.start = b.start ∧ a.rule = b.rule := by
  simp [sameCell, and_assoc]

theorem sameCopy_iff {a b : Item} :
    a.sameCopy b = true ↔
      (a.dot = b.dot ∧ a.start = b.start ∧ a.rule = b.rule) ∧ a.provenance = b.provenance := by
  simp [sameCopy, sameCell_iff]

end Item

end ContextFree
