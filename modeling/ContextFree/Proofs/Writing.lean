import ContextFree.Proofs.Reading
import ContextFree.Proofs.Tokens

/-!
# Writing grammars

A grammar is written as a text with a line for each definition: the name, an arrow, and the
alternatives with bars between them, everything set apart by single blanks. A nonterminal is written
as its name, a terminal text between quotes with escapes, and an alternative without symbols as
nothing. Reading the text gives the grammar back, provided that its names can be written as names
and that it is what reading can come to: names differ, each has an alternative, what is used is
defined, and the first name is the start.

## Main definitions

* `ContextFree.Arrow` - the ways to write the arrow.
* `ContextFree.Grammar.written` - the text of a grammar, for an arrow chosen for each definition.
* `ContextFree.Grammar.Writable` - the grammars that are read back.

## Main results

* `ContextFree.Definition.ofLine_written` - a written line defines what it was written for.
* `ContextFree.Grammar.ofText_written` - **a written grammar is read back**.
-/

namespace ContextFree

open Token (Reads)

/-! ### The text of a grammar -/

/-- The ways to write the arrow between a name and its alternatives. -/
inductive Arrow where
  /-- An equality sign. -/
  | equals
  /-- A dash and a tip. -/
  | tip
  /-- Two colons and an equality sign. -/
  | colons
deriving DecidableEq, Repr

/-- The arrow as it is written. -/
def Arrow.written : Arrow → List Char
  | equals => ['=']
  | tip => ['-', '>']
  | colons => [':', ':', '=']

/-- A symbol as it is written: a terminal text between quotes, a name bare. -/
def Symbol.written : Symbol → List Char
  | terminal text => '"' :: (Quoted.write text.toList ++ ['"'])
  | nonterminal name => name.toList

/-- An alternative as it is written. -/
def Alternative.written (a : Alternative) : List Char := [' '].intercalate (a.map Symbol.written)

/-- The line of a definition. -/
def Definition.written (arrow : Arrow) (d : Definition) : List Char :=
  d.name.toList ++ ' ' :: (arrow.written ++ ' ' ::
    [' ', '|', ' '].intercalate (d.alternatives.map Alternative.written))

/-- The text of a grammar, with a line for each definition. -/
def Grammar.written (arrow : Definition → Arrow) (g : Grammar) : String :=
  String.ofList (['\n'].intercalate (g.definitions.map fun d => d.written (arrow d)))

/-- The grammars that are read back from their texts. -/
structure Grammar.Writable (g : Grammar) : Prop where
  /-- The start is the first name, so there is one. -/
  start_eq : g.definitions.head?.map Definition.name = some g.start
  /-- Names differ. -/
  nodup : (g.definitions.map Definition.name).Nodup
  /-- Names can be written as names. -/
  names : ∀ d ∈ g.definitions, IsName d.name.toList
  /-- Each name has an alternative. -/
  alternatives : ∀ d ∈ g.definitions, d.alternatives ≠ []
  /-- What is used is defined. -/
  closed : ∀ d ∈ g.definitions, ∀ used ∈ d.uses, g.defines used = true

instance (g : Grammar) : Decidable g.Writable :=
  decidable_of_iff (g.definitions.head?.map Definition.name = some g.start ∧
      (g.definitions.map Definition.name).Nodup ∧
      (∀ d ∈ g.definitions, IsName d.name.toList) ∧
      (∀ d ∈ g.definitions, d.alternatives ≠ []) ∧
      ∀ d ∈ g.definitions, ∀ used ∈ d.uses, g.defines used = true)
    ⟨fun ⟨hstart, hnodup, hnames, halternatives, hclosed⟩ =>
        ⟨hstart, hnodup, hnames, halternatives, hclosed⟩,
      fun h => ⟨h.start_eq, h.nodup, h.names, h.alternatives, h.closed⟩⟩

/-! ### The tokens of a line -/

/-- The token that stands for a symbol. -/
def Symbol.token : Symbol → Token
  | terminal text => .quoted text
  | nonterminal name => .name name

theorem Alternative.ofTokens_tokens (a : Alternative) :
    Alternative.ofTokens (a.map Symbol.token) = .ok a := by
  induction a with
  | nil => rfl
  | cons symbol rest ih => cases symbol <;> simp [Symbol.token, Symbol.ofToken, ofTokens, ih]

theorem alternativesOfTokens_tokens (alternatives : List Alternative) :
    alternativesOfTokens (alternatives.map fun a => a.map Symbol.token) = .ok alternatives := by
  induction alternatives with
  | nil => rfl
  | cons a rest ih => rw [List.map_cons, alternativesOfTokens, Alternative.ofTokens_tokens, ih]

/-- With nothing between them, the tokens of single symbols are those of the row. -/
theorem Alternative.intercalate_tokens : ∀ a : Alternative,
    ([] : List Token).intercalate (a.map fun s => [s.token]) = a.map Symbol.token
  | [] => rfl
  | [_] => rfl
  | s :: t :: rest => by
    have ih := intercalate_tokens (t :: rest)
    rw [List.map_cons] at ih
    rw [List.map_cons, List.map_cons, List.intercalate_cons_cons, ih]
    rfl

theorem Symbol.reads_written {symbol : Symbol}
    (h : ∀ name, symbol.name? = some name → IsName name.toList) :
    Reads symbol.written [symbol.token] := by
  cases symbol with
  | terminal text => simpa [written, token] using Token.reads_quoted text.toList
  | nonterminal name => simpa [written, token] using Token.reads_name (h name rfl)

theorem Alternative.reads_written {a : Alternative}
    (h : ∀ used ∈ a.filterMap Symbol.name?, IsName used.toList) :
    Reads (Alternative.written a) (a.map Symbol.token) := by
  have hrow : Reads (Alternative.written a) ([].intercalate (a.map fun s => [s.token])) :=
    Reads.intercalate (fun hcs hds => by simpa using hcs.append_blank hds) fun symbol hsymbol =>
      Symbol.reads_written fun name hname =>
        h name (List.mem_filterMap.mpr ⟨symbol, hsymbol, hname⟩)
  rwa [intercalate_tokens] at hrow

namespace Definition

variable {arrow : Arrow} {d : Definition}

theorem reads_written (hname : IsName d.name.toList) (huses : ∀ used ∈ d.uses, IsName used.toList) :
    Reads (d.written arrow) (.name d.name :: .equals ::
      [Token.or].intercalate (d.alternatives.map fun a => a.map Symbol.token)) := by
  have hright : Reads ([' ', '|', ' '].intercalate (d.alternatives.map Alternative.written))
      ([Token.or].intercalate (d.alternatives.map fun a => a.map Symbol.token)) :=
    Reads.intercalate
      (fun hcs hds => by simpa using hcs.append_blank (Token.reads_bar.append_blank hds))
      fun a ha => Alternative.reads_written fun used hused =>
        huses used (List.mem_flatMap.mpr ⟨a, ha, hused⟩)
  have harrow : Reads arrow.written [.equals] := Token.reads_arrow (by cases arrow <;> rfl)
  have hleft := Token.reads_name hname
  rw [String.ofList_toList] at hleft
  exact hleft.append_blank (harrow.append_blank hright)

/-- **A written line defines what it was written for.** -/
theorem ofLine_written (hname : IsName d.name.toList) (huses : ∀ used ∈ d.uses, IsName used.toList)
    (hne : d.alternatives ≠ []) : ofLine (d.written arrow) = .ok d := by
  have hsegments : segments (· == Token.or)
      ([Token.or].intercalate (d.alternatives.map fun a => a.map Symbol.token)) =
      d.alternatives.map fun a => a.map Symbol.token := by
    refine segments_intercalate rfl (by simpa using hne) fun row hrow t ht => ?_
    obtain ⟨a, -, rfl⟩ := List.mem_map.mp hrow
    obtain ⟨symbol, -, rfl⟩ := List.mem_map.mp ht
    cases symbol <;> rfl
  rw [ofLine, (reads_written hname huses).lex_eq]
  simp only [ofTokens, hsegments, alternativesOfTokens_tokens]

end Definition

/-! ### The lines of a text -/

theorem Unbroken.append {xs ys : List Char} (hx : Unbroken xs) (hy : Unbroken ys) :
    Unbroken (xs ++ ys) where
  no_newline h := (List.mem_append.mp h).elim hx.no_newline hy.no_newline
  no_return h := by
    rw [List.getLast?_append] at h
    cases hlast : ys.getLast? with
    | none => exact hx.no_return (by simpa [hlast] using h)
    | some c => exact hy.no_return (by simpa [hlast] using h)

theorem Unbroken.intercalate {sep : List Char} (hsep : Unbroken sep) :
    ∀ {rows : List (List Char)}, (∀ row ∈ rows, Unbroken row) → Unbroken (sep.intercalate rows)
  | [], _ => ⟨by simp, by simp⟩
  | [row], h => by
    rw [List.intercalate_singleton]
    exact h row List.mem_cons_self
  | row :: next :: rest, h => by
    rw [List.intercalate_cons_cons]
    exact ((h row List.mem_cons_self).append hsep).append
      (intercalate hsep fun r hr => h r (List.mem_cons_of_mem _ hr))

theorem IsName.unbroken {name : List Char} (h : IsName name) : Unbroken name where
  no_newline hmem := absurd (h.chars _ hmem).1 (by decide)
  no_return hlast := absurd (h.chars _ (List.mem_of_getLast? hlast)).1 (by decide)

theorem Symbol.unbroken_written {symbol : Symbol}
    (h : ∀ name, symbol.name? = some name → IsName name.toList) : Unbroken symbol.written := by
  cases symbol with
  | terminal text =>
    constructor
    · intro hmem
      have hmem : '\n' ∈ Quoted.write text.toList := by simpa [written] using hmem
      exact Quoted.newline_not_mem_write _ hmem
    · rw [written, ← List.cons_append, List.getLast?_concat]
      decide
  | nonterminal name => exact (h name rfl).unbroken

namespace Definition

variable {arrow : Arrow} {d : Definition}

theorem unbroken_written (hname : IsName d.name.toList)
    (huses : ∀ used ∈ d.uses, IsName used.toList) : Unbroken (d.written arrow) := by
  have hblank : Unbroken [' '] := ⟨by decide, by decide⟩
  have harrow : Unbroken arrow.written := by cases arrow <;> exact ⟨by decide, by decide⟩
  have hright : Unbroken
      ([' ', '|', ' '].intercalate (d.alternatives.map Alternative.written)) := by
    refine Unbroken.intercalate ⟨by decide, by decide⟩ fun row hrow => ?_
    obtain ⟨a, ha, rfl⟩ := List.mem_map.mp hrow
    refine Unbroken.intercalate hblank fun cs hcs => ?_
    obtain ⟨symbol, hsymbol, rfl⟩ := List.mem_map.mp hcs
    exact Symbol.unbroken_written fun name hname => huses name
      (List.mem_flatMap.mpr ⟨a, ha, List.mem_filterMap.mpr ⟨symbol, hsymbol, hname⟩⟩)
  exact hname.unbroken.append (hblank.append (harrow.append (hblank.append hright)))

theorem isRuleLine_written (hname : IsName d.name.toList) :
    isRuleLine (d.written arrow) = true := by
  obtain ⟨c, rest, hcons⟩ := List.exists_cons_of_ne_nil hname.ne_nil
  have hblank : isBlank c = false := (hname.chars c (hcons ▸ List.mem_cons_self)).1
  have hsemicolon : c ≠ ';' := fun h => hname.no_semicolon (by rw [hcons, h]; rfl)
  rw [written, hcons, List.cons_append, isRuleLine, List.dropWhile_cons_of_neg (by simp [hblank])]
  simpa using hsemicolon

theorem written_ne_nil : d.written arrow ≠ [] :=
  List.append_ne_nil_of_right_ne_nil _ (List.cons_ne_nil _ _)

end Definition

/-! ### Reading a text back -/

namespace Grammar

/-- A text whose rule lines define different names and leave nothing undefined is read as what they
define. -/
theorem ofText_eq_ok (origin : Location) {text : String} {g : Grammar}
    (hlines : ((lines text.toList).filter isRuleLine).map Definition.ofLine =
      g.definitions.map .ok)
    (hnodup : (g.definitions.map Definition.name).Nodup)
    (hclosed : ∀ d ∈ g.definitions, ∀ used ∈ d.uses, g.defines used = true)
    (hstart : g.definitions.head?.map Definition.name = some g.start) :
    ofText origin text = .ok g := by
  have hgood : ¬ Malformed text := by
    rintro ⟨line, hline, hrule, fault, hfault⟩
    have hmem : .error fault ∈ g.definitions.map Except.ok :=
      hlines ▸ List.mem_map.mpr ⟨line, List.mem_filter.mpr ⟨hline, hrule⟩, hfault⟩
    simp at hmem
  obtain ⟨ds, -, hread, htext⟩ := exists_readsAs origin hgood
  have hvalues : ds.map Located.value = g.definitions :=
    List.map_injective_iff.mpr (fun _ _ => Except.ok.inj) (hread.symm.trans hlines)
  have hjoin : join ds = ds := by
    refine join_eq_self ?_
    rw [← hvalues, List.map_map] at hnodup
    exact hnodup
  have hdefined : undefinedUses ds = [] := by
    refine undefinedUses_eq_nil_iff.mpr fun d hd used hused => ?_
    obtain ⟨e, he, hname⟩ := defines_iff.mp
      (hclosed d.value (hvalues ▸ List.mem_map_of_mem hd) used hused)
    rw [← hvalues] at he
    obtain ⟨f, hf, rfl⟩ := List.mem_map.mp he
    exact ⟨f, hf, hname⟩
  have hfirst : (ds.head?.map fun d => d.value.name).getD "" = g.start := by
    rw [← hvalues, List.head?_map, Option.map_map] at hstart
    exact (congrArg (Option.getD · "") hstart)
  rw [htext, ofDefinitions_eq_ok, hfirst, hjoin, hvalues]
  exact ⟨hdefined, rfl⟩

theorem Writable.uses_names {g : Grammar} (h : g.Writable) {d : Definition}
    (hd : d ∈ g.definitions) : ∀ used ∈ d.uses, IsName used.toList := by
  intro used hused
  obtain ⟨e, he, rfl⟩ := defines_iff.mp (h.closed d hd used hused)
  exact h.names e he

/-- **A written grammar is read back**, whichever arrows are written, and whether or not a newline
ends the last line. -/
theorem ofText_written {g : Grammar} (h : g.Writable) (arrow : Definition → Arrow)
    (origin : Location) :
    ofText origin (g.written arrow) = .ok g ∧ ofText origin (g.written arrow ++ "\n") = .ok g := by
  have hne : g.definitions ≠ [] := fun hnil => absurd h.start_eq (by simp [hnil])
  have hrows : ∀ row ∈ g.definitions.map fun d => d.written (arrow d),
      row ≠ [] ∧ Unbroken row := by
    intro row hrow
    obtain ⟨d, hd, rfl⟩ := List.mem_map.mp hrow
    exact ⟨Definition.written_ne_nil, Definition.unbroken_written (h.names d hd) (h.uses_names hd)⟩
  have hlines := lines_intercalate (List.map_eq_nil_iff.not.mpr hne) hrows
  have hread : ((g.definitions.map fun d => d.written (arrow d)).filter isRuleLine).map
      Definition.ofLine = g.definitions.map .ok := by
    rw [List.filter_eq_self.mpr, List.map_map]
    · exact List.map_congr_left fun d hd => Definition.ofLine_written (h.names d hd)
        (h.uses_names hd) (h.alternatives d hd)
    · intro row hrow
      obtain ⟨d, hd, rfl⟩ := List.mem_map.mp hrow
      exact Definition.isRuleLine_written (h.names d hd)
  have htext : (g.written arrow).toList =
      ['\n'].intercalate (g.definitions.map fun d => d.written (arrow d)) := String.toList_ofList
  constructor
  · refine ofText_eq_ok origin ?_ h.nodup h.closed h.start_eq
    rw [htext, hlines.1, hread]
  · refine ofText_eq_ok origin ?_ h.nodup h.closed h.start_eq
    have hended : (g.written arrow ++ "\n").toList =
        ['\n'].intercalate (g.definitions.map fun d => d.written (arrow d)) ++ ['\n'] := by
      rw [String.toList_append, htext]
      rfl
    rw [hended, hlines.2, hread]

/-- A grammar of names that look like arrows, with every escape and with empty alternatives. -/
def signs : Grammar :=
  ⟨":-", [⟨":-", [[.nonterminal ">", .terminal "\"\\\n;"], [], [.nonterminal "::"]]⟩,
    ⟨">", [[], [.terminal "", .nonterminal ":-"]]⟩, ⟨"::", [[]]⟩]⟩

theorem signs_read_back :
    signs.Writable ∧
      signs.written (fun d => if d.name = ">" then .colons else .tip) =
        ":- -> > \"\\\"\\\\\\n;\" |  | ::\n> ::=  | \"\" :-\n:: -> " ∧
      ofText ⟨"signs.bnf", 0⟩ (signs.written fun d => if d.name = ">" then .colons else .tip) =
        .ok signs ∧
      ofText ⟨"signs.bnf", 0⟩
        ((signs.written fun d => if d.name = ">" then .colons else .tip) ++ "\n") = .ok signs := by
  have hwritable : signs.Writable := by decide +kernel
  exact ⟨hwritable, by decide +kernel, ofText_written hwritable _ _⟩

end Grammar

end ContextFree
