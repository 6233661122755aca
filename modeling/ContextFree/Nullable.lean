import ContextFree.Rule

/-!
# Nullable symbols

A symbol is nullable when the rules lead from it to nothing. The analysis records, for every nullable
symbol, one rule that erases it using only symbols found nullable earlier. The record is a list of
rules, newest first, so the right side of each entry is erased by the entries after it; erasing a
symbol by the record is therefore a recursion on the list.

## Main definitions

* `ContextFree.Nullable` - the nullable symbols with their erasing rules.
* `ContextFree.Rules.nullable` - the analysis: empty rules first, then rounds over the rule list
  until nothing is added.
* `ContextFree.Nullable.erasure` - all rules it takes to erase a symbol, leftmost first.
-/

namespace ContextFree

/-- Nullable symbols, each with the rule that proved it so. -/
structure Nullable where
  /-- The proving rules, newest first. -/
  erasers : Rules
deriving DecidableEq, Repr

namespace Nullable

/-- The analysis found the symbol nullable. -/
def contains (n : Nullable) (symbol : String) : Bool := n.erasers.defines symbol

/-- The rule that proved the symbol nullable. -/
def eraser? (n : Nullable) (symbol : String) : Option Rule :=
  n.erasers.find? fun r => r.lhs == symbol

/-- The number of nullable symbols. -/
def size (n : Nullable) : Nat := n.erasers.length

/-- Record a rule if it proves a new symbol nullable. -/
def add (n : Nullable) (r : Rule) : Nullable :=
  if !n.contains r.lhs && r.rhs.all n.contains then ⟨r :: n.erasers⟩ else n

/-- Offer each rule of the list once, in order; what one adds is known to the next. -/
def pass (rules : Rules) (n : Nullable) : Nullable := rules.foldl add n

/-- Passes over the rule list until one adds nothing, at most the given number. -/
def saturate (rules : Rules) : Nat → Nullable → Nullable
  | 0, n => n
  | passes + 1, n =>
    let next := n.pass rules
    if next.size = n.size then n else saturate rules passes next

end Nullable

/-- The nullable symbols of a rule list. A pass that adds something adds the left side of a rule, so
there are at most as many of them as rules. -/
def Rules.nullable (rules : Rules) : Nullable :=
  Nullable.saturate rules rules.length (Nullable.pass (rules.filter Rule.isEmpty) ⟨[]⟩)

namespace Nullable

/-! ### Erasing by the record -/

/-- The rules that erase a symbol by a record, newest entry first: the entry for the symbol, then
whatever erases its right side by the entries that are older. -/
def erasureIn : Rules → String → List Rule
  | [], _ => []
  | e :: older, symbol =>
    if e.lhs = symbol then e :: e.rhs.flatMap (erasureIn older) else erasureIn older symbol

/-- The rules that erase a symbol, in the order in which a leftmost derivation applies them; none
for a symbol that is not nullable. -/
def erasure (n : Nullable) (symbol : String) : List Rule := erasureIn n.erasers symbol

theorem contains_iff {n : Nullable} {symbol : String} :
    n.contains symbol = true ↔ ∃ r ∈ n.erasers, r.lhs = symbol :=
  Rules.defines_iff

theorem contains_iff_isSome_eraser? {n : Nullable} {symbol : String} :
    n.contains symbol = true ↔ (n.eraser? symbol).isSome = true := by
  simp [contains, Rules.defines, eraser?]

end Nullable

end ContextFree
