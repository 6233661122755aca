import ContextFree.Chart.Fill
import ContextFree.Derivation
import ContextFree.Forest.Unfold

/-!
# Outcomes of recognition

The input is accepted when some completed item of the start symbol spans it and its tree replays to
it, token by token. Each such item contributes a derivation; those that read the same are reported
once, and at most four are reported.

## Main definitions

* `ContextFree.Outcome` - the derivations that are reported.
* `ContextFree.Rules.outcome` - what a filled chart says about an input.
* `ContextFree.Rules.parse` - the chart and the outcome of an input.
-/

namespace ContextFree

/-- The derivations reported for an input. -/
structure Outcome where
  /-- The derivations, different from each other; none for an input that is rejected. -/
  derivations : List Derivation
deriving DecidableEq, Repr, Inhabited

namespace Outcome

/-- The outcome of an input that is no sentence. -/
def rejected : Outcome := ⟨[]⟩

/-- Some derivation is reported. -/
def accepted (o : Outcome) : Bool := !o.derivations.isEmpty

/-- The number of derivations, or minus one for a rejected input. -/
def length (o : Outcome) : Int := if o.accepted then o.derivations.length else -1

theorem accepted_iff {o : Outcome} : o.accepted = true ↔ o.derivations ≠ [] := by
  simp [accepted]

end Outcome

namespace Rules

/-- The replay of the item at a link. -/
def replay (rules : Rules) (n : Nullable) (c : Chart) (l : Link) : Replay :=
  (rules.tree c l).replay n (rootSymbol c l)

/-- The derivation of an input from the item at a link, unless the replay goes astray. -/
def derivation? (rules : Rules) (n : Nullable) (c : Chart) (input : List String) (l : Link) :
    Option Derivation :=
  let r := rules.replay n c l
  if r.form = input then some r.derivation else none

/-- The outcome of an input by its chart. A chart that stops short of the input rejects it. -/
def outcome (rules : Rules) (n : Nullable) (c : Chart) (start : String) (input : List String) :
    Outcome :=
  if c.length < input.length + 1 then .rejected
  else ⟨((c.finals start).filterMap (rules.derivation? n c input)).eraseDups.take derivationLimit⟩

/-- The chart and the outcome of an input. -/
def parse (rules : Rules) (start : String) (input : List String) : Chart × Outcome :=
  let n := rules.nullable
  let c := rules.chart n (rules.retention n) start input
  (c, rules.outcome n c start input)

/-- The outcome of an input. -/
def recognize (rules : Rules) (start : String) (input : List String) : Outcome :=
  (rules.parse start input).2

end Rules

end ContextFree
