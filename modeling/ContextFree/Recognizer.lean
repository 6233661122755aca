import ContextFree.Outcome

/-!
# Recognizers

A recognizer holds a start symbol and a rule list for inputs that come one after the other, and the
chart of the last one. Inputs do not influence each other.

## Main definitions

* `ContextFree.Recognizer` - start symbol, rules and last chart.
* `ContextFree.Recognizer.parse` - the outcome of an input and the recognizer that holds its chart.
-/

namespace ContextFree

/-- A start symbol, rules, and the chart of the last input. -/
structure Recognizer where
  /-- The symbol that inputs are recognized as. -/
  start : String
  /-- The rules that are tried. -/
  rules : Rules
  /-- The chart of the last input, blank before the first. -/
  chart : Chart
deriving Repr, Inhabited

namespace Recognizer

/-- The recognizer of a start symbol under given rules. -/
def ofRules (start : String) (rules : Rules) : Recognizer := ⟨start, rules, .blank .strict⟩

/-- Recognize an input. -/
def parse (r : Recognizer) (input : List String) : Outcome × Recognizer :=
  let (chart, outcome) := r.rules.parse r.start input
  (outcome, { r with chart })

/-- Take other rules and keep the chart. -/
def setRules (r : Recognizer) (rules : Rules) : Recognizer := { r with rules }

/-- Forget the chart. -/
def restart (r : Recognizer) : Recognizer := { r with chart := .blank .strict }

/-- Forget the rules and the chart. -/
def reset (r : Recognizer) : Recognizer := (r.setRules []).restart

@[simp] theorem parse_fst (r : Recognizer) (input : List String) :
    (r.parse input).1 = r.rules.recognize r.start input := rfl

end Recognizer

end ContextFree
