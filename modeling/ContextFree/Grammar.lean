import ContextFree.Rule

/-!
# Grammars

A grammar lists definitions. A definition gives a name its alternatives, and an alternative is a row
of symbols: terminal texts and names of nonterminals. Recognition works on the rules that a grammar
amounts to, where a terminal text is split into its characters.

## Main definitions

* `ContextFree.Symbol`, `ContextFree.Alternative`, `ContextFree.Definition`, `ContextFree.Grammar`.
* `ContextFree.Grammar.find?` - the definition of a name.
* `ContextFree.Grammar.rules` - the rules over atomic symbols.
-/

namespace ContextFree

/-- A symbol of an alternative. -/
inductive Symbol where
  /-- A text that stands for itself. -/
  | terminal (text : String)
  /-- A name that stands for what it is defined as. -/
  | nonterminal (name : String)
deriving DecidableEq, Repr, Inhabited

/-- The characters of a text, each as a symbol of its own. -/
def characters (text : String) : List String := text.toList.map String.singleton

theorem characters_of_length_eq_one {symbol : String} (h : symbol.length = 1) :
    characters symbol = [symbol] := by
  obtain ⟨c, hc⟩ := List.length_eq_one_iff.mp (String.length_toList.trans h)
  have hsymbol : String.singleton c = symbol := by
    rw [← String.toList_inj, String.toList_singleton, hc]
  rw [characters, hc, List.map_singleton, hsymbol]

/-- A row of symbols of one character each is read back from its text. -/
theorem characters_join {row : List String} (h : ∀ symbol ∈ row, symbol.length = 1) :
    characters (String.join row) = row := by
  rw [characters, String.toList_join, List.map_flatMap]
  induction row with
  | nil => rfl
  | cons symbol rest ih =>
    rw [List.flatMap_cons, ih fun s hs => h s (List.mem_cons_of_mem _ hs)]
    exact congrArg (· ++ rest) (characters_of_length_eq_one (h symbol List.mem_cons_self))

theorem length_of_mem_characters {text symbol : String} (h : symbol ∈ characters text) :
    symbol.length = 1 := by
  obtain ⟨c, -, rfl⟩ := List.mem_map.mp h
  rw [← String.length_toList, String.toList_singleton]
  rfl

/-- The atomic symbols that a symbol stands for. -/
def Symbol.atoms : Symbol → List String
  | terminal text => characters text
  | nonterminal name => [name]

/-- The name, if the symbol is one. -/
def Symbol.name? : Symbol → Option String
  | terminal _ => none
  | nonterminal name => some name

/-- A row of symbols. -/
abbrev Alternative := List Symbol

/-- A name and what it may stand for. -/
structure Definition where
  /-- The name that is defined. -/
  name : String
  /-- The alternatives, in order. -/
  alternatives : List Alternative
deriving DecidableEq, Repr, Inhabited

/-- The names that a definition uses, once for each use. -/
def Definition.uses (d : Definition) : List String :=
  d.alternatives.flatMap fun a => a.filterMap Symbol.name?

/-- The rules over atomic symbols that a definition amounts to. -/
def Definition.rules (d : Definition) : Rules :=
  d.alternatives.map fun a => ⟨d.name, a.flatMap Symbol.atoms⟩

/-- Definitions in order, and the name that sentences are derived from. -/
structure Grammar where
  /-- The name that sentences are derived from. -/
  start : String
  /-- The definitions; of several with one name the first is found. -/
  definitions : List Definition
deriving DecidableEq, Repr, Inhabited

namespace Grammar

/-- The first definition of a name. -/
def find? (g : Grammar) (name : String) : Option Definition :=
  g.definitions.find? fun d => d.name == name

/-- The name has a definition. -/
def defines (g : Grammar) (name : String) : Bool := (g.find? name).isSome

/-- The rules over atomic symbols, in the order of the definitions. -/
def rules (g : Grammar) : Rules := g.definitions.flatMap Definition.rules

theorem defines_iff {g : Grammar} {name : String} :
    g.defines name = true ↔ ∃ d ∈ g.definitions, d.name = name := by
  simp [defines, find?]

end Grammar

end ContextFree
