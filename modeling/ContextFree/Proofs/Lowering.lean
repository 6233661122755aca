import ContextFree.Proofs.Phrase
import ContextFree.Proofs.Sketch

/-!
# What becomes of a grammar in atomic symbols

The rules over atomic symbols do not say any more which symbols were terminal texts: a symbol is a
nonterminal when some rule has it as its left side. So a character of a terminal text that is also a
name is taken for the name. It is then rewritten, though in the grammar it stands for itself.

A tree of a name is a derivation under the rules all the same. Where no character of a terminal text
is a name, what it spells are terminals; and a derivation of terminals is regrouped into a tree,
text by text. Only the alternatives that have trees matter here, since the others are never part of
a derivation of terminals. Conversely, a character that is also a name, in an alternative that has
trees, is spelled by one of these trees and is not a terminal.

## Main definitions

* `ContextFree.Grammar.Unconfused` - no character of a terminal text is a name.
* `ContextFree.Grammar.Closed` - every name of one character that is used has an alternative.

## Main results

* `ContextFree.Phrase.Valid.derives` - a tree is a derivation under the rules.
* `ContextFree.Phrase.exists_regrouped` - trees over characters are trees over the texts.
* `ContextFree.Grammar.yields_iff_isSentence` - when the rules derive what the trees spell.
* `ContextFree.Grammar.quoted_name_rewritten` - a character that is taken for a name.
-/

namespace ContextFree

variable {g : Grammar} {name : String} {w : List String}

/-! ### From trees to derivations -/

/-- **A tree is a derivation under the rules.** -/
theorem Phrase.Valid.derives {p : Phrase} (h : p.Valid g) :
    g.rules.Derives (p.symbols.flatMap Symbol.atoms) p.yield := by
  induction p with
  | nil => exact .refl []
  | leaf text rest ih => exact (ih h).append_left (characters text)
  | node name children rest ihc ih =>
    obtain ⟨hoffers, hvalidc, hvalidr⟩ := h
    have hrule : (⟨name, children.symbols.flatMap Symbol.atoms⟩ : Rule) ∈ g.rules :=
      Grammar.mem_rules.mpr ⟨children.symbols, hoffers, rfl⟩
    exact ((Rules.Derives.of_mem hrule).trans (ihc hvalidc)).append (ih hvalidr)

namespace Grammar

theorem Yields.derives (h : g.Yields name w) : g.rules.Derives [name] w := by
  obtain ⟨p, hoffers, hvalid, rfl⟩ := h
  have hrule : (⟨name, p.symbols.flatMap Symbol.atoms⟩ : Rule) ∈ g.rules :=
    mem_rules.mpr ⟨p.symbols, hoffers, rfl⟩
  exact (Rules.Derives.of_mem hrule).trans hvalid.derives

/-- No character of a terminal text is a name, in any alternative that has trees. -/
def Unconfused (g : Grammar) : Prop :=
  ∀ name a, g.Offers name a → g.Productive a →
    ∀ text, .terminal text ∈ a → g.rules.IsTerminal (characters text)

/-- It is enough that no character of any terminal text is a name. -/
theorem unconfused_of_forall (h : ∀ d ∈ g.definitions, ∀ a ∈ d.alternatives, ∀ s ∈ a,
    s.name? = none → ∀ token ∈ s.atoms, g.rules.defines token = false) : g.Unconfused := by
  rintro name a ⟨d, hd, -, ha⟩ - text htext
  exact h d hd a ha _ htext rfl

/-- Every name of one character that an alternative uses has an alternative itself. -/
def Closed (g : Grammar) : Prop :=
  ∀ name a, g.Offers name a → ∀ used, .nonterminal used ∈ a → used.length = 1 →
    g.rules.defines used = true

theorem closed_of_forall (h : ∀ d ∈ g.definitions, ∀ used ∈ d.uses, g.rules.defines used = true) :
    g.Closed := by
  rintro name a ⟨d, hd, -, ha⟩ used hused -
  exact h d hd used (List.mem_flatMap.mpr ⟨a, ha, List.mem_filterMap.mpr ⟨_, hused, rfl⟩⟩)

/-- Where texts are not confused with names, trees spell terminals. -/
theorem Unconfused.isTerminal_yield {p : Phrase} (hclear : g.Unconfused) (h : p.Valid g)
    (htexts : ∀ text, .terminal text ∈ p.symbols → g.rules.IsTerminal (characters text)) :
    g.rules.IsTerminal p.yield := by
  induction p with
  | nil => exact .nil g.rules
  | leaf text rest ih =>
    exact (htexts text List.mem_cons_self).append
      (ih h fun text htext => htexts text (List.mem_cons_of_mem _ htext))
  | node name children rest ihc ih =>
    obtain ⟨hoffers, hvalidc, hvalidr⟩ := h
    have hbelow := ihc hvalidc (hclear name _ hoffers (productive_symbols hvalidc))
    exact hbelow.append (ih hvalidr fun text htext => htexts text (List.mem_cons_of_mem _ htext))

theorem Unconfused.isSentence (hclear : g.Unconfused) (h : g.Yields name w) :
    g.rules.IsSentence name w := by
  refine ⟨?_, h.derives⟩
  obtain ⟨p, hoffers, hvalid, rfl⟩ := h
  exact hclear.isTerminal_yield hvalid (hclear name _ hoffers (productive_symbols hvalid))

/-- Where what the trees spell are sentences, texts are not confused with names: each character of a
text is spelled by some tree. -/
theorem unconfused_of_isSentence
    (h : ∀ name w, g.Yields name w → g.rules.IsSentence name w) : g.Unconfused := by
  intro name a hoffers hproductive text htext token htoken
  obtain ⟨p, hvalid, rfl⟩ := productive_iff.mp hproductive
  have hsentence := h name p.yield ⟨p, hoffers, hvalid, rfl⟩
  exact hsentence.terminal token (Phrase.mem_yield_of_terminal htext htoken)

/-- What an atomic symbol is read as: a name if it has an alternative, a text otherwise. -/
def read (g : Grammar) (symbol : String) : Symbol :=
  if g.rules.defines symbol then .nonterminal symbol else .terminal symbol

end Grammar

/-! ### From derivations to trees -/

namespace Phrase

/-- A row of trees over the characters of a text, one by one, spells the text. -/
theorem exists_after_characters {row : List String} {a : Alternative} {p : Phrase}
    (h : p.Valid g) (hrow : ∀ token ∈ row, token.length = 1)
    (hsymbols : p.symbols = row.map .terminal ++ a) :
    ∃ rest : Phrase, rest.Valid g ∧ rest.symbols = a ∧ p.yield = row ++ rest.yield := by
  induction row generalizing p with
  | nil => exact ⟨p, h, hsymbols, rfl⟩
  | cons token row ih =>
    cases p with
    | nil => exact absurd hsymbols.symm (List.cons_ne_nil _ _)
    | node => exact absurd (List.cons.inj hsymbols).1 Symbol.noConfusion
    | leaf text rest =>
      obtain ⟨hhead, htail⟩ := List.cons.inj hsymbols
      cases hhead
      obtain ⟨after, hvalid, hafter, hyield⟩ :=
        ih (p := rest) h (fun t ht => hrow t (List.mem_cons_of_mem _ ht)) htail
      refine ⟨after, hvalid, hafter, ?_⟩
      rw [yield, characters_of_length_eq_one (hrow token List.mem_cons_self), hyield]
      rfl

/-- **Trees over characters are trees over the texts.** A row of trees over the atomic symbols of an
alternative is regrouped into one over the alternative, if its texts are read as texts and its names
as names. -/
theorem exists_regrouped {a : Alternative} {p : Phrase} (h : p.Valid g)
    (htexts : ∀ text, .terminal text ∈ a → g.rules.IsTerminal (characters text))
    (hnames : ∀ name, .nonterminal name ∈ a → g.rules.defines name = true)
    (hsymbols : p.symbols = (a.flatMap Symbol.atoms).map g.read) :
    ∃ q : Phrase, q.Valid g ∧ q.symbols = a ∧ q.yield = p.yield := by
  induction a generalizing p with
  | nil =>
    obtain rfl := eq_nil_of_symbols hsymbols
    exact ⟨nil, trivial, rfl, rfl⟩
  | cons symbol a ih =>
    have htextsa : ∀ text, .terminal text ∈ a → g.rules.IsTerminal (characters text) :=
      fun text htext => htexts text (List.mem_cons_of_mem _ htext)
    have hnamesa : ∀ name, .nonterminal name ∈ a → g.rules.defines name = true :=
      fun name hname => hnames name (List.mem_cons_of_mem _ hname)
    cases symbol with
    | terminal text =>
      have hread : (characters text).map g.read = (characters text).map .terminal :=
        List.map_congr_left fun c hc => by
          rw [Grammar.read, htexts text List.mem_cons_self c hc, if_neg Bool.false_ne_true]
      rw [List.flatMap_cons, Symbol.atoms, List.map_append, hread] at hsymbols
      obtain ⟨rest, hrest, hrest_symbols, hyield⟩ :=
        exists_after_characters h (fun _ => length_of_mem_characters) hsymbols
      obtain ⟨q, hq, rfl, hq_yield⟩ := ih hrest htextsa hnamesa hrest_symbols
      exact ⟨leaf text q, hq, rfl, by rw [yield, hq_yield, hyield]⟩
    | nonterminal name =>
      have hread : g.read name = .nonterminal name := by
        rw [Grammar.read, hnames name List.mem_cons_self, if_pos rfl]
      rw [List.flatMap_cons, Symbol.atoms, List.singleton_append, List.map_cons, hread] at hsymbols
      cases p with
      | nil => exact absurd hsymbols.symm (List.cons_ne_nil _ _)
      | leaf => exact absurd (List.cons.inj hsymbols).1 Symbol.noConfusion
      | node name' children rest =>
        obtain ⟨hhead, htail⟩ := List.cons.inj hsymbols
        cases hhead
        obtain ⟨q, hq, rfl, hq_yield⟩ := ih h.2.2 htextsa hnamesa htail
        exact ⟨node name children q, ⟨h.1, h.2.1, hq⟩, rfl, by rw [yield, yield, hq_yield]⟩

end Phrase

/-- Without gaps, a root that no rule defines is spelled. -/
theorem Sketch.Valid.mem_yield_of_roots {rules : Rules} {t : Sketch} {symbol : String}
    (ht : t.Valid rules) (hgaps : t.gaps = []) (hsymbol : symbol ∈ t.roots)
    (hdefines : rules.defines symbol = false) : symbol ∈ t.yield := by
  induction t with
  | nil => exact absurd hsymbol List.not_mem_nil
  | leaf symbol' rest ih =>
    rcases List.mem_cons.mp hsymbol with rfl | hsymbol
    · exact List.mem_cons_self
    · exact List.mem_cons_of_mem _ (ih ht.2 hgaps hsymbol)
  | gap symbol' rest => exact absurd hgaps (List.cons_ne_nil _ _)
  | node rule children rest _ ih =>
    rcases List.mem_cons.mp hsymbol with rfl | hsymbol
    · have hdefined : rules.defines rule.lhs = true := Rules.defines_iff.mpr ⟨rule, ht.1, rfl⟩
      exact absurd (hdefines.symm.trans hdefined) Bool.false_ne_true
    · exact List.mem_append_right _
        (ih ht.2.2.2 (List.append_eq_nil_iff.mp hgaps).2 hsymbol)

/-- **A parse of single characters is a row of trees.** -/
theorem Sketch.Valid.exists_phrase {t : Sketch} (hclear : g.Unconfused) (hclosed : g.Closed)
    (ht : t.Valid g.rules) (hgaps : t.gaps = []) (hchars : ∀ token ∈ t.yield, token.length = 1) :
    ∃ p : Phrase, p.Valid g ∧ p.symbols = t.roots.map g.read ∧ p.yield = t.yield := by
  induction t with
  | nil => exact ⟨.nil, trivial, rfl, rfl⟩
  | leaf symbol rest ih =>
    obtain ⟨p, hp, hsymbols, hyield⟩ :=
      ih ht.2 hgaps fun token htoken => hchars token (List.mem_cons_of_mem _ htoken)
    refine ⟨.leaf symbol p, hp, ?_, ?_⟩
    · rw [Phrase.symbols, roots, List.map_cons, hsymbols, Grammar.read, ht.1,
        if_neg Bool.false_ne_true]
    · rw [Phrase.yield, yield, characters_of_length_eq_one (hchars symbol List.mem_cons_self),
        hyield]
      rfl
  | gap symbol rest => exact absurd hgaps (List.cons_ne_nil _ _)
  | node rule children rest ihc ih =>
    obtain ⟨hr, hchildren, hvalidc, hvalidr⟩ := ht
    obtain ⟨hgapsc, hgapsr⟩ := List.append_eq_nil_iff.mp hgaps
    have hcharsc : ∀ token ∈ children.yield, token.length = 1 :=
      fun token htoken => hchars token (List.mem_append_left _ htoken)
    obtain ⟨c, hc, hc_symbols, hc_yield⟩ := ihc hvalidc hgapsc hcharsc
    obtain ⟨p, hp, hp_symbols, hp_yield⟩ :=
      ih hvalidr hgapsr fun token htoken => hchars token (List.mem_append_right _ htoken)
    obtain ⟨a, hoffers, hatoms⟩ := Grammar.mem_rules.mp hr
    rw [hchildren, ← hatoms] at hc_symbols
    -- a name without alternatives would be spelled, and has more than one character
    have hnames : ∀ name, .nonterminal name ∈ a → g.rules.defines name = true := by
      intro name hname
      have hroot : name ∈ children.roots := by
        rw [hchildren, ← hatoms]
        exact List.mem_flatMap.mpr ⟨.nonterminal name, hname, List.mem_cons_self⟩
      cases hdefines : g.rules.defines name with
      | true => rfl
      | false =>
        have hspelled := hvalidc.mem_yield_of_roots hgapsc hroot hdefines
        have hdefined := hclosed _ a hoffers name hname (hcharsc name hspelled)
        exact hdefines.symm.trans hdefined
    -- the names of the alternative have trees, those among the children
    have hproductive : g.Productive a := by
      intro name hname
      refine Grammar.productive_symbols hc name ?_
      rw [hc_symbols]
      refine List.mem_map.mpr ⟨name, List.mem_flatMap.mpr ⟨_, hname, List.mem_cons_self⟩, ?_⟩
      rw [Grammar.read, hnames name hname, if_pos rfl]
    obtain ⟨q, hq, rfl, hq_yield⟩ :=
      Phrase.exists_regrouped hc (hclear _ a hoffers hproductive) hnames hc_symbols
    refine ⟨.node rule.lhs q p, ⟨hoffers, hq, hp⟩, ?_, ?_⟩
    · have hdefines : g.rules.defines rule.lhs = true := Rules.defines_iff.mpr ⟨rule, hr, rfl⟩
      rw [Phrase.symbols, roots, List.map_cons, hp_symbols, Grammar.read, hdefines, if_pos rfl]
    · rw [Phrase.yield, yield, hq_yield, hc_yield, hp_yield]

namespace Grammar

/-- What the rules derive from a name is spelled by a tree of the name. -/
theorem Unconfused.yields (hclear : g.Unconfused) (hclosed : g.Closed)
    (hname : g.rules.defines name = true) (hchars : ∀ token ∈ w, token.length = 1)
    (h : g.rules.IsSentence name w) : g.Yields name w := by
  obtain ⟨t, ht⟩ := Rules.isSentence_iff_exists_isParse.mp h
  obtain ⟨p, hp, hsymbols, hyield⟩ :=
    ht.valid.exists_phrase hclear hclosed ht.gaps (ht.yield.symm ▸ hchars)
  rw [ht.roots, List.map_singleton, read, hname, if_pos rfl] at hsymbols
  cases p with
  | nil => exact absurd hsymbols.symm (List.cons_ne_nil _ _)
  | leaf => exact absurd (List.cons.inj hsymbols).1 Symbol.noConfusion
  | node name' children rest =>
    obtain ⟨hhead, hrest⟩ := List.cons.inj hsymbols
    cases hhead
    obtain rfl := Phrase.eq_nil_of_symbols hrest
    exact ⟨children, hp.1, hp.2.1, by rw [← ht.yield, ← hyield]; exact (List.append_nil _).symm⟩

/-- **When the rules derive what the trees spell.** Whatever a tree of a name spells is derived from
the name. If every name of one character that is used has an alternative, then the trees of each
name spell just the sentences of single characters that the rules derive from it, exactly if no
character of a terminal text is a name, in any alternative that has trees. -/
theorem yields_iff_isSentence (g : Grammar) :
    (∀ name w, g.Yields name w → g.rules.Derives [name] w) ∧
    (g.Closed →
      ((∀ name w, g.rules.defines name = true → (∀ token ∈ w, token.length = 1) →
        (g.Yields name w ↔ g.rules.IsSentence name w)) ↔ g.Unconfused)) := by
  refine ⟨fun _ _ h => h.derives, fun hclosed => ⟨fun h => ?_, fun hclear => ?_⟩⟩
  · refine unconfused_of_isSentence fun name w hyields => ?_
    obtain ⟨p, hoffers, hvalid, rfl⟩ := hyields
    have hname : g.rules.defines name = true := defines_rules_iff.mpr ⟨_, hoffers⟩
    exact (h name p.yield hname Phrase.length_of_mem_yield).mp ⟨p, hoffers, hvalid, rfl⟩
  · intro name w hname hchars
    exact ⟨hclear.isSentence, hclear.yields hclosed hname hchars⟩

/-- A grammar of letters in pairs, one inside the other. -/
def nestedLetters : Grammar :=
  ⟨"S", [⟨"S", [[.terminal "a", .nonterminal "S", .terminal "b"], [.terminal "ab"]]⟩]⟩

/-- What a tree of nested letters spells is derived by the rules. -/
theorem nested_letters_derived :
    nestedLetters.Closed ∧ nestedLetters.Unconfused ∧
      nestedLetters.Yields "S" ["a", "a", "b", "b"] ∧
      nestedLetters.rules.IsSentence "S" ["a", "a", "b", "b"] := by
  have hclosed : nestedLetters.Closed := closed_of_forall (by decide)
  have hclear : nestedLetters.Unconfused := unconfused_of_forall (by decide)
  have hyields : nestedLetters.Yields "S" ["a", "a", "b", "b"] := by
    have hinner : nestedLetters.Offers "S" [.terminal "ab"] :=
      ⟨_, List.mem_cons_self, rfl, by decide⟩
    have houter : nestedLetters.Offers "S" [.terminal "a", .nonterminal "S", .terminal "b"] :=
      ⟨_, List.mem_cons_self, rfl, by decide⟩
    exact ⟨.leaf "a" (.node "S" (.leaf "ab" .nil) (.leaf "b" .nil)), houter,
      ⟨hinner, trivial, trivial⟩, by decide⟩
  exact ⟨hclosed, hclear, hyields, (((yields_iff_isSentence nestedLetters).2 hclosed).mpr hclear "S"
    ["a", "a", "b", "b"] (by decide) (by decide)).mp hyields⟩

/-- A grammar with a quoted text that is also a name. -/
def quotedName : Grammar :=
  ⟨"S", [⟨"S", [[.terminal "T"]]⟩, ⟨"T", [[.terminal "x"]]⟩]⟩

/-- The quoted text stands for itself, but the rules rewrite it as the name. -/
theorem quoted_name_rewritten :
    quotedName.Closed ∧
      (quotedName.Yields "S" ["T"] ∧ ¬ quotedName.rules.IsSentence "S" ["T"]) ∧
      ¬ quotedName.Yields "S" ["x"] ∧ quotedName.rules.IsSentence "S" ["x"] := by
  have hnames : ∀ d ∈ quotedName.definitions, ∀ a ∈ d.alternatives, ∀ s ∈ a, s.name? = none := by
    decide
  have htexts : ∀ d ∈ quotedName.definitions, d.name = "S" →
      ∀ a ∈ d.alternatives, .terminal "T" ∈ a := by decide
  refine ⟨?_, ⟨?_, fun h => ?_⟩, ?_, ?_, ?_⟩
  · rintro name a ⟨d, hd, -, ha⟩ used hused
    exact absurd (hnames d hd a ha _ hused) (Option.some_ne_none used)
  · exact ⟨.leaf "T" .nil, ⟨_, List.mem_cons_self, rfl, List.mem_cons_self⟩, trivial, rfl⟩
  · exact absurd (h.terminal "T" List.mem_cons_self) (by decide)
  · rintro ⟨p, ⟨d, hd, hname, ha⟩, -, hyield⟩
    have htoken : "T" ∈ p.yield :=
      Phrase.mem_yield_of_terminal (htexts d hd hname _ ha) (by decide)
    rw [hyield] at htoken
    exact absurd htoken (by decide)
  · exact .singleton rfl
  · have hS : (⟨"S", ["T"]⟩ : Rule) ∈ quotedName.rules := by decide
    have hT : (⟨"T", ["x"]⟩ : Rule) ∈ quotedName.rules := by decide
    exact (Rules.Derives.of_mem hS).trans (Rules.Derives.of_mem hT)

end Grammar

end ContextFree
