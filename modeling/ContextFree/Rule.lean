/-!
# Rules over atomic symbols

A rule replaces one symbol, its left side, by a row of symbols. Symbols are texts compared only for
equality: a symbol is a nonterminal of a rule list exactly when some rule of the list has it as
its left side, and every other symbol is a terminal.

## Main definitions

* `ContextFree.Rule` - a left side and the symbols it may be replaced by.
* `ContextFree.Rule.text` - the rule as it is written in a derivation.
* `ContextFree.Rules` - a rule list, in the order that decides between derivations.
* `ContextFree.Rules.defines`, `ContextFree.Rules.of` - the nonterminals and their rules.
-/

namespace ContextFree

/-- A production over atomic symbols; two rules are equal when both sides are. -/
structure Rule where
  /-- The symbol that is replaced. -/
  lhs : String
  /-- The symbols that take its place, none for an erasing rule. -/
  rhs : List String
deriving DecidableEq, Repr, Inhabited

namespace Rule

/-- An empty rule erases its left side. -/
def isEmpty (r : Rule) : Bool := r.rhs.isEmpty

/-- The rule as written in a derivation: the right side run together, or `ε` if it has no symbol. -/
def text (r : Rule) : String :=
  r.lhs ++ " → " ++ (if r.isEmpty then "ε" else String.join r.rhs)

theorem isEmpty_iff {r : Rule} : r.isEmpty = true ↔ r.rhs = [] := by
  simp [isEmpty]

end Rule

/-- A list of rules in the order in which they are tried. -/
abbrev Rules := List Rule

namespace Rules

/-- A symbol is defined when some rule replaces it. -/
def defines (rules : Rules) (symbol : String) : Bool :=
  rules.any fun r => r.lhs == symbol

/-- The rules of one symbol, in list order. -/
def of (rules : Rules) (symbol : String) : Rules :=
  rules.filter fun r => r.lhs == symbol

/-- The symbols that some rule replaces, one entry per rule. -/
def defined (rules : Rules) : List String :=
  rules.map Rule.lhs

theorem defines_iff {rules : Rules} {symbol : String} :
    rules.defines symbol = true ↔ ∃ r ∈ rules, r.lhs = symbol := by
  simp [defines]

@[simp] theorem mem_of {rules : Rules} {symbol : String} {r : Rule} :
    r ∈ rules.of symbol ↔ r ∈ rules ∧ r.lhs = symbol := by
  simp [of]

@[simp] theorem mem_defined {rules : Rules} {symbol : String} :
    symbol ∈ rules.defined ↔ ∃ r ∈ rules, r.lhs = symbol := by
  simp [defined]

end Rules

end ContextFree
