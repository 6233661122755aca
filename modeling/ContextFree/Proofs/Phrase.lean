import ContextFree.Grammar

/-!
# Derivation trees of a grammar

A derivation tree of a name has below it the trees of one of its alternatives. A terminal text is a
tree of its own and spells its characters, whatever names there are. As with the trees over rules, a
row of trees is spelled as the tree in front and the trees after it.

These are the trees over the alternatives as they are written. They make no use of the rules over
atomic symbols that a grammar amounts to.

## Main definitions

* `ContextFree.Grammar.Offers` - the alternatives of a name.
* `ContextFree.Phrase` - rows of derivation trees.
* `ContextFree.Phrase.Valid` - every name stands over one of its alternatives.
* `ContextFree.Grammar.Yields` - some tree of a name spells a row of tokens.
* `ContextFree.Grammar.Productive` - every name of an alternative has a tree.

## Main results

* `ContextFree.Grammar.productive_iff` - an alternative is productive if there are trees over it.
-/

namespace ContextFree

namespace Grammar

variable {g : Grammar} {name : String}

/-- The alternative is one of those that the definitions of a name give it. -/
def Offers (g : Grammar) (name : String) (a : Alternative) : Prop :=
  ∃ d ∈ g.definitions, d.name = name ∧ a ∈ d.alternatives

/-- The definition that is found for a name gives it its alternatives. -/
theorem offers_of_find? {d : Definition} {a : Alternative} (hd : g.find? name = some d)
    (ha : a ∈ d.alternatives) : g.Offers name a := by
  rw [find?] at hd
  have hname := List.find?_some hd
  exact ⟨d, List.mem_of_find?_eq_some hd, beq_iff_eq.mp hname, ha⟩

/-- The rules of a grammar are its alternatives in atomic symbols. -/
theorem mem_rules {r : Rule} :
    r ∈ g.rules ↔ ∃ a, g.Offers r.lhs a ∧ a.flatMap Symbol.atoms = r.rhs := by
  constructor
  · intro hr
    obtain ⟨d, hd, hr⟩ := List.mem_flatMap.mp hr
    obtain ⟨a, ha, rfl⟩ := List.mem_map.mp hr
    exact ⟨a, ⟨d, hd, rfl, ha⟩, rfl⟩
  · rintro ⟨a, ⟨d, hd, hname, ha⟩, hatoms⟩
    refine List.mem_flatMap.mpr ⟨d, hd, List.mem_map.mpr ⟨a, ha, ?_⟩⟩
    rw [hname, hatoms]

/-- The rules define the names that have an alternative. -/
theorem defines_rules_iff : g.rules.defines name = true ↔ ∃ a, g.Offers name a := by
  rw [Rules.defines_iff]
  constructor
  · rintro ⟨r, hr, rfl⟩
    obtain ⟨a, ha, -⟩ := mem_rules.mp hr
    exact ⟨a, ha⟩
  · rintro ⟨a, ha⟩
    exact ⟨⟨name, a.flatMap Symbol.atoms⟩, mem_rules.mpr ⟨a, ha, rfl⟩, rfl⟩

end Grammar

/-- A row of derivation trees. -/
inductive Phrase where
  /-- No tree. -/
  | nil
  /-- A terminal text and the trees after it. -/
  | leaf (text : String) (rest : Phrase)
  /-- The tree of a name, given by the trees of one of its alternatives, and the trees after it. -/
  | node (name : String) (children rest : Phrase)
deriving DecidableEq, Repr

namespace Phrase

variable {g : Grammar} {p : Phrase}

/-- The symbols that the trees of a row stand for. -/
def symbols : Phrase → Alternative
  | nil => []
  | leaf text rest => .terminal text :: rest.symbols
  | node name _ rest => .nonterminal name :: rest.symbols

/-- The tokens that a row spells, one for each character. -/
def yield : Phrase → List String
  | nil => []
  | leaf text rest => characters text ++ rest.yield
  | node _ children rest => children.yield ++ rest.yield

/-- Every name stands over one of its alternatives. -/
def Valid (g : Grammar) : Phrase → Prop
  | nil => True
  | leaf _ rest => rest.Valid g
  | node name children rest =>
    g.Offers name children.symbols ∧ children.Valid g ∧ rest.Valid g

theorem eq_nil_of_symbols (h : p.symbols = []) : p = nil := by
  cases p with
  | nil => rfl
  | leaf => exact absurd h (List.cons_ne_nil _ _)
  | node => exact absurd h (List.cons_ne_nil _ _)

/-- Every token is one character long. -/
theorem length_of_mem_yield : ∀ token ∈ p.yield, token.length = 1 := by
  induction p with
  | nil =>
    intro token h
    exact absurd h List.not_mem_nil
  | leaf text rest ih =>
    intro token h
    rcases List.mem_append.mp h with h | h
    · exact length_of_mem_characters h
    · exact ih token h
  | node name children rest ihc ih =>
    intro token h
    rcases List.mem_append.mp h with h | h
    · exact ihc token h
    · exact ih token h

/-- The characters of a terminal text are spelled. -/
theorem mem_yield_of_terminal {text token : String} (htext : .terminal text ∈ p.symbols)
    (htoken : token ∈ characters text) : token ∈ p.yield := by
  induction p with
  | nil => exact absurd htext List.not_mem_nil
  | leaf text' rest ih =>
    rcases List.mem_cons.mp htext with heq | htext
    · cases heq
      exact List.mem_append_left _ htoken
    · exact List.mem_append_right _ (ih htext)
  | node name children rest _ ih =>
    rcases List.mem_cons.mp htext with heq | htext
    · exact absurd heq Symbol.noConfusion
    · exact List.mem_append_right _ (ih htext)

end Phrase

namespace Grammar

variable {g : Grammar} {name : String} {a : Alternative}

/-- Some tree of the name spells the tokens. -/
def Yields (g : Grammar) (name : String) (w : List String) : Prop :=
  ∃ p : Phrase, g.Offers name p.symbols ∧ p.Valid g ∧ p.yield = w

/-- Every name of the alternative has a tree. -/
def Productive (g : Grammar) (a : Alternative) : Prop :=
  ∀ name, .nonterminal name ∈ a → ∃ w, g.Yields name w

theorem productive_symbols {p : Phrase} (h : p.Valid g) : g.Productive p.symbols := by
  induction p with
  | nil =>
    intro name hname
    exact absurd hname List.not_mem_nil
  | leaf text rest ih =>
    intro name hname
    rcases List.mem_cons.mp hname with heq | hname
    · exact absurd heq Symbol.noConfusion
    · exact ih h name hname
  | node name' children rest _ ih =>
    intro name hname
    rcases List.mem_cons.mp hname with heq | hname
    · cases heq
      exact ⟨children.yield, children, h.1, h.2.1, rfl⟩
    · exact ih h.2.2 name hname

/-- **An alternative is productive if there are trees over it.** -/
theorem productive_iff : g.Productive a ↔ ∃ p : Phrase, p.Valid g ∧ p.symbols = a := by
  refine ⟨fun h => ?_, ?_⟩
  · induction a with
    | nil => exact ⟨.nil, trivial, rfl⟩
    | cons symbol rest ih =>
      obtain ⟨p, hvalid, rfl⟩ := ih fun name hname => h name (List.mem_cons_of_mem _ hname)
      cases symbol with
      | terminal text => exact ⟨.leaf text p, hvalid, rfl⟩
      | nonterminal name =>
        obtain ⟨_, c, hoffers, hc, -⟩ := h name List.mem_cons_self
        exact ⟨.node name c p, ⟨hoffers, hc, hvalid⟩, rfl⟩
  · rintro ⟨p, hvalid, rfl⟩
    exact productive_symbols hvalid

end Grammar

end ContextFree
