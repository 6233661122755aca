import ContextFree.Grammar

/-!
# Heights of nonterminals

The height of a nonterminal is the height of its lowest derivation tree, where a tree whose root has
no nonterminal below it has height one. A nonterminal without a finite derivation tree has none.
Heights are found in rounds: in round `n` the nonterminals of height `n` are those not found before
that have an alternative whose nonterminals were all found before. A round that finds nothing is the
last, so there are at most as many rounds as definitions.

## Main definitions

* `ContextFree.Heights` - nonterminals with their heights.
* `ContextFree.Alternative.height?` - one more than the tallest nonterminal of an alternative.
* `ContextFree.Grammar.heights` - the heights of a grammar.
-/

namespace ContextFree

/-- The heights found so far. -/
abbrev Heights := List (String × Nat)

namespace Heights

/-- The height of a nonterminal, if it was found. -/
def get? (h : Heights) (name : String) : Option Nat := h.lookup name

end Heights

/-- The height of an alternative: one more than its tallest nonterminal, one if it has none, and
nothing if a nonterminal of it has no height. -/
def Alternative.height? (h : Heights) : Alternative → Option Nat
  | [] => some 1
  | .terminal _ :: rest => Alternative.height? h rest
  | .nonterminal name :: rest =>
    match h.get? name, Alternative.height? h rest with
    | some below, some height => some (max height (below + 1))
    | _, _ => none

namespace Grammar

/-- The definitions that a round finds a height for. -/
def found (g : Grammar) (h : Heights) : List Definition :=
  g.definitions.filter fun d =>
    (h.get? d.name).isNone && d.alternatives.any fun a => (a.height? h).isSome

/-- Rounds from a number on, at most so many. -/
def heightsFrom (g : Grammar) : Nat → Nat → Heights → Heights
  | 0, _, h => h
  | rounds + 1, round, h =>
    match g.found h with
    | [] => h
    | ds => g.heightsFrom rounds (round + 1) (h ++ ds.map fun d => (d.name, round))

/-- The heights of the nonterminals that have a finite derivation tree. -/
def heights (g : Grammar) : Heights := g.heightsFrom g.definitions.length 1 []

end Grammar

end ContextFree
