import ContextFree.Rule

/-!
# Sentential forms

A sentential form is a row of symbols. A rule is applied at the first occurrence of its left side,
which its right side replaces.

## Main definitions

* `ContextFree.Form` - rows of symbols.
* `ContextFree.Form.apply` - one step.

## Main results

* `ContextFree.Form.apply_append_cons` - the step at the first occurrence.
-/

namespace ContextFree

/-- A row of symbols. -/
abbrev Form := List String

namespace Form

/-- The symbols of a form run together. -/
def text (form : Form) : String := String.join form

/-- Put the right side of a rule in the place of the first occurrence of its left side. -/
def apply : Form → Rule → Form
  | [], _ => []
  | symbol :: rest, r => if symbol = r.lhs then r.rhs ++ rest else symbol :: apply rest r

/-- Apply rules one after the other. -/
def applyAll (form : Form) (rules : List Rule) : Form := rules.foldl apply form

theorem apply_append_cons {front : Form} {r : Rule} (h : r.lhs ∉ front) (back : Form) :
    Form.apply (front ++ r.lhs :: back) r = front ++ r.rhs ++ back := by
  induction front with
  | nil => simp [apply]
  | cons symbol rest ih =>
    have h : r.lhs ≠ symbol ∧ r.lhs ∉ rest := by simpa using h
    rw [List.cons_append, apply, if_neg (Ne.symm h.1), ih h.2]
    simp

end Form

end ContextFree
