import ContextFree.Form

/-!
# Derivability

One form derives another when some number of steps leads from the one to the other, a step putting
the right side of a rule in the place of one occurrence of its left side. A sentence of a symbol is
a row of terminals that the symbol derives.

This is the meaning of a rule list, stated without charts: a step may be taken anywhere in a form,
and nothing bounds their number.

## Main definitions

* `ContextFree.Rules.Derives` - derivability between forms.
* `ContextFree.Rules.IsTerminal`, `ContextFree.Rules.IsSentence` - the sentences of a symbol.

## Main results

* `ContextFree.Rules.Derives.append` - rows that stand side by side are derived independently.
-/

namespace ContextFree

namespace Rules

/-- Some number of steps leads from one form to another. -/
inductive Derives (rules : Rules) : Form → Form → Prop where
  /-- No step. -/
  | refl (form : Form) : Derives rules form form
  /-- Some steps, and one more at an occurrence of the left side of a rule. -/
  | tail {form front back : Form} {r : Rule} :
      Derives rules form (front ++ r.lhs :: back) → r ∈ rules →
        Derives rules form (front ++ r.rhs ++ back)

/-- No rule replaces any symbol of the row. -/
def IsTerminal (rules : Rules) (form : Form) : Prop :=
  ∀ symbol ∈ form, rules.defines symbol = false

/-- A row of terminals that a symbol derives. -/
structure IsSentence (rules : Rules) (symbol : String) (form : Form) : Prop where
  /-- The row holds terminals only. -/
  terminal : rules.IsTerminal form
  /-- The symbol derives the row. -/
  derives : rules.Derives [symbol] form

namespace Derives

variable {rules : Rules} {a b c d : Form}

/-! ### Composition -/

theorem trans (hab : rules.Derives a b) (hbc : rules.Derives b c) : rules.Derives a c := by
  induction hbc with
  | refl => exact hab
  | tail _ hr ih => exact ih.tail hr

theorem of_mem {r : Rule} (h : r ∈ rules) : rules.Derives [r.lhs] r.rhs := by
  have hself : rules.Derives [r.lhs] ([] ++ r.lhs :: []) := .refl _
  simpa using hself.tail h

theorem append_left (front : Form) (h : rules.Derives a b) :
    rules.Derives (front ++ a) (front ++ b) := by
  induction h with
  | refl => exact .refl _
  | @tail front' back r _ hr ih =>
    rw [← List.append_assoc] at ih
    simpa [List.append_assoc] using ih.tail hr

theorem append_right (back : Form) (h : rules.Derives a b) :
    rules.Derives (a ++ back) (b ++ back) := by
  induction h with
  | refl => exact .refl _
  | @tail front back' r _ hr ih =>
    rw [List.append_assoc, List.cons_append] at ih
    simpa [List.append_assoc] using ih.tail hr

theorem append (hab : rules.Derives a b) (hcd : rules.Derives c d) :
    rules.Derives (a ++ c) (b ++ d) :=
  (hab.append_right c).trans (hcd.append_left b)

/-- More rules derive no less. -/
theorem mono {more : Rules} (hsub : ∀ r ∈ rules, r ∈ more) (h : rules.Derives a b) :
    more.Derives a b := by
  induction h with
  | refl => exact .refl _
  | tail _ hr ih => exact ih.tail (hsub _ hr)

end Derives

end Rules

end ContextFree
