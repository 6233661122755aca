import ContextFree.Nullable
import ContextFree.Reachable

/-!
# Left recursion

A nonterminal is left-recursive when it derives, in one or more steps, a form that begins with
itself. What a form can begin with after one rule is a symbol of the right side up to and including
the first one that is not nullable: a left corner. Left recursion is a cycle of left corners, so it
is found whether it is direct, runs through other symbols, or hides behind symbols that can be
erased.

## Main definitions

* `ContextFree.Rules.corners` - the nonterminals that one rule of a symbol can put first.
* `ContextFree.Rules.leftRecursive` - some nonterminal reaches itself by left corners.
-/

namespace ContextFree

/-- The symbols up to and including the first that is not nullable. -/
def Nullable.leading (n : Nullable) : List String → List String
  | [] => []
  | symbol :: rest => if n.contains symbol then symbol :: n.leading rest else [symbol]

namespace Rules

/-- The left corners of a symbol: the nonterminals that can come first after one of its rules. -/
def corners (rules : Rules) (n : Nullable) (symbol : String) : List String :=
  ((rules.of symbol).flatMap fun r => n.leading r.rhs).filter rules.defines

/-- Some nonterminal is its own left corner, at once or through others. -/
def leftRecursive (rules : Rules) (n : Nullable) : Bool :=
  rules.defined.eraseDups.any fun symbol =>
    (reached (rules.corners n) rules.length symbol).contains symbol

theorem mem_corners {rules : Rules} {n : Nullable} {a b : String} :
    b ∈ rules.corners n a ↔
      (∃ r ∈ rules, r.lhs = a ∧ b ∈ n.leading r.rhs) ∧ rules.defines b = true := by
  simp [corners, and_assoc]

end Rules

end ContextFree
