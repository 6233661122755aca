import ContextFree.Form
import ContextFree.Forest
import ContextFree.Nullable

/-!
# Derivations

A derivation is shown as a list of steps, each naming the rule it applies and the sentential form it
leads to. It is made by replaying the rules of a tree from its root: the rules of the nodes in
preorder come first, and then the symbols that recognition stepped over are erased, leftmost first,
by the rules that proved them nullable.

## Main definitions

* `ContextFree.Step`, `ContextFree.Derivation` - what is shown of a derivation.
* `ContextFree.Replay` - a root symbol and the rules applied to it.
* `ContextFree.Forest.replay` - the replay of a tree.
-/

namespace ContextFree

/-- One step of a derivation, as it is shown. -/
structure Step where
  /-- The text of the rule that is applied. -/
  rule : String
  /-- The text of the form it leads to. -/
  result : String
deriving DecidableEq, Repr, Inhabited

/-- The steps from a start symbol to a sentence. -/
structure Derivation where
  /-- The steps in order; the first one introduces the start symbol. -/
  steps : List Step
deriving DecidableEq, Repr, Inhabited

/-- The step on a line of its own; a form without text is shown as `ε`. -/
def Step.line (s : Step) : String :=
  s.rule ++ "  =>  " ++ (if s.result.isEmpty then "ε" else s.result) ++ "\n"

namespace Derivation

/-- The text of the last form. -/
def result (d : Derivation) : String :=
  match d.steps.getLast? with
  | none => ""
  | some s => s.result

/-- All steps, one line each. -/
def text (d : Derivation) : String := String.join (d.steps.map Step.line)

end Derivation

/-- A root symbol and the rules that are applied to it one after the other. -/
structure Replay where
  /-- The symbol the derivation begins with. -/
  root : String
  /-- The rules in the order of their application. -/
  rules : List Rule
deriving DecidableEq, Repr

namespace Replay

/-- The form that the rules lead to. -/
def form (r : Replay) : Form := Form.applyAll [r.root] r.rules

/-- The steps that rules take from a form. -/
def stepsFrom (form : Form) : List Rule → List Step
  | [] => []
  | r :: rest =>
    let next := form.apply r
    ⟨r.text, next.text⟩ :: stepsFrom next rest

/-- The replay as it is shown. -/
def derivation (r : Replay) : Derivation :=
  ⟨⟨"Start → " ++ r.root, r.root⟩ :: stepsFrom [r.root] r.rules⟩

end Replay

/-- The replay of a tree from its root symbol: the rules of its nodes, then whatever erases the
nullable symbols that are left, from left to right. -/
def Forest.replay (tree : Forest) (n : Nullable) (root : String) : Replay :=
  ⟨root, tree.rules ++ (Form.applyAll [root] tree.rules).flatMap n.erasure⟩

end ContextFree
