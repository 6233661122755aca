import ContextFree.Proofs.Lexing
import ContextFree.Proofs.Reading
import Mathlib.Data.List.TakeWhile

/-!
# Which faults a text may have

Two faults stand for mistakes of the reader itself: an alternative that still holds the mark between
alternatives, and a line without tokens that is taken for a definition. A text never has them. The
tokens behind an arrow are cut at all those marks. And a line is read only if it holds a character
that is not blank, which a step takes with a token or finds a fault at.

The tokens behind the arrow are those from the third on. There are two before them whenever they are
asked for, since a name and an arrow have been found by then.

## Main definitions

* `ContextFree.Fault.IsOfLine` - the faults of single lines.
* `ContextFree.Definition.ofTokens?` - the definition that tokens give, with a slice of them that
  there may not be.

## Main results

* `ContextFree.Token.lex_eq_nil_iff` - the lines without tokens.
* `ContextFree.Definition.ofTokens?_eq` - the slice is always there.
* `ContextFree.Definition.isOfLine_of_ofLine` - the faults of a rule line.
* `ContextFree.Grammar.inner_faults_unreachable` - **no text has a fault of the reader itself**.
-/

namespace ContextFree

variable {line : List Char} {tokens : List Token} {fault : Fault}

/-! ### Lines without tokens -/

namespace Token

/-- No token begins with a blank. -/
theorem Takes.isBlank_eq_false {c : Char} {rest after : List Char} {token : Token}
    (h : Takes c rest (some token) after) : isBlank c = false := by
  refine Bool.eq_false_iff.mpr fun hblank => ?_
  obtain ⟨⟨hequal, hcolon, hdash⟩, hbar, hquote⟩ := ne_of_isBlank hblank
  cases h with
  | arrow h => exact (isArrow_cons h).elim hequal (Or.elim · hcolon hdash)
  | sign hc => exact hc.elim hequal (Or.elim · hcolon hdash)
  | bar hc => exact hbar hc
  | quoted hc => exact hquote hc
  | word hchar => exact absurd hblank (by simp [(isNameChar_iff.mp hchar).1])

/-- **The lines without tokens** are the blank ones. -/
theorem lex_eq_nil_iff : lex line = .ok [] ↔ ∀ c ∈ line, isBlank c = true := by
  induction line using lex_induction with
  | nil => simp [lex]
  | @fault c rest fault hstep =>
    obtain ⟨rfl, -⟩ := step_eq_error_iff.mp hstep
    rw [lex_cons_of_fault hstep]
    simp [isBlank]
  | @takes c rest t after htakes ih =>
    rw [lex_cons htakes, List.forall_mem_cons]
    cases t with
    | none =>
      cases htakes with
      | blank hc =>
        rw [← ih]
        cases lex rest <;> simp [hc, Except.map]
    | some token =>
      have hc := htakes.isBlank_eq_false
      cases lex after <;> simp [hc, Except.map]

end Token

theorem lex_ne_nil (h : isRuleLine line = true) : Token.lex line ≠ .ok [] := by
  intro hlex
  have hblank := Token.lex_eq_nil_iff.mp hlex
  have hdrop : line.dropWhile isBlank = [] := List.dropWhile_eq_nil_iff.mpr hblank
  rw [isRuleLine, hdrop] at h
  exact Bool.false_ne_true h

/-! ### The faults of a line -/

namespace Fault

/-- The faults that single lines may have: two of quoted text, and three of a definition. -/
def IsOfLine : Fault → Prop
  | unmatchedQuote => True
  | unknownEscape _ => True
  | missingNonterminal => True
  | missingEquals => True
  | unexpectedEquals => True
  | _ => False

theorem IsOfLine.not_inner (h : fault.IsOfLine) :
    fault ≠ .unsplitAlternatives ∧ fault ≠ .unexpectedBlankLine := by
  constructor
  · rintro rfl
    exact h
  · rintro rfl
    exact h

end Fault

theorem Token.isOfLine_of_lex (h : Token.lex line = .error fault) : fault.IsOfLine := by
  induction line using Token.lex_induction with
  | nil => simp [Token.lex] at h
  | fault hstep =>
    obtain rfl := Except.error.inj ((Token.lex_cons_of_fault hstep).symm.trans h)
    obtain ⟨rfl, left, htake⟩ := Token.step_eq_error_iff.mp hstep
    rcases Token.takeQuoted_eq_error_iff.mp htake with ⟨x, -, rfl⟩ | ⟨-, rfl, -⟩
    · trivial
    · trivial
  | @takes c rest t after htakes ih =>
    rw [Token.lex_cons htakes] at h
    cases hlex : Token.lex after with
    | ok ts => simp [hlex, Except.map] at h
    | error fault' =>
      rw [hlex] at h
      exact ih (hlex.trans (congrArg _ (Except.error.inj h)))

/-- An alternative without the mark between alternatives has no fault but an arrow. -/
theorem Alternative.eq_unexpectedEquals_of_ofTokens (hmark : .or ∉ tokens)
    (h : Alternative.ofTokens tokens = .error fault) : fault = .unexpectedEquals := by
  induction tokens with
  | nil => simp [ofTokens] at h
  | cons t rest ih =>
    rw [List.mem_cons, not_or] at hmark
    have hrest : ∀ {symbol}, Symbol.ofToken t = .ok symbol → fault = .unexpectedEquals := by
      intro symbol hsymbol
      cases htail : Alternative.ofTokens rest with
      | ok symbols => simp [ofTokens, hsymbol, htail] at h
      | error fault' =>
        simp only [ofTokens, hsymbol, htail, Except.error.injEq] at h
        exact ih hmark.2 (htail.trans (congrArg _ h))
    cases t with
    | equals => exact (Except.error.inj h).symm
    | or => exact absurd rfl hmark.1
    | name text => exact hrest rfl
    | quoted text => exact hrest rfl

theorem eq_unexpectedEquals_of_alternatives {rows : List (List Token)}
    (hmark : ∀ tokens ∈ rows, Token.or ∉ tokens) (h : alternativesOfTokens rows = .error fault) :
    fault = .unexpectedEquals := by
  induction rows with
  | nil => simp [alternativesOfTokens] at h
  | cons tokens rows ih =>
    rw [List.forall_mem_cons] at hmark
    cases htokens : Alternative.ofTokens tokens with
    | error fault' =>
      simp only [alternativesOfTokens, htokens, Except.error.injEq] at h
      exact h ▸ Alternative.eq_unexpectedEquals_of_ofTokens hmark.1 htokens
    | ok alternative =>
      cases hrows : alternativesOfTokens rows with
      | ok alternatives => simp [alternativesOfTokens, htokens, hrows] at h
      | error fault' =>
        simp only [alternativesOfTokens, htokens, hrows, Except.error.injEq] at h
        exact ih hmark.2 (hrows.trans (congrArg _ h))

namespace Definition

/-- Where tokens are cut at the marks between alternatives, no mark is left. -/
theorem or_not_mem_segments {right row : List Token}
    (hrow : row ∈ segments (· == Token.or) right) : Token.or ∉ row := fun hmem =>
  absurd (mem_of_mem_segments hrow _ hmem).2 (by decide)

theorem isOfLine_of_ofTokens (hne : tokens ≠ []) (h : ofTokens tokens = .error fault) :
    fault.IsOfLine := by
  unfold ofTokens at h
  split at h
  · next name right =>
    split at h
    · next fault' hright =>
      obtain rfl := Except.error.inj h
      obtain rfl := eq_unexpectedEquals_of_alternatives (fun _ => or_not_mem_segments) hright
      trivial
    · exact absurd h (by simp)
  · obtain rfl := Except.error.inj h
    trivial
  · obtain rfl := Except.error.inj h
    trivial
  · exact absurd rfl hne

/-- **The faults of a rule line** are faults of lines. -/
theorem isOfLine_of_ofLine (hrule : isRuleLine line = true) (h : ofLine line = .error fault) :
    fault.IsOfLine := by
  cases hlex : Token.lex line with
  | error fault' =>
    rw [ofLine, hlex] at h
    obtain rfl := Except.error.inj h
    exact Token.isOfLine_of_lex hlex
  | ok tokens =>
    rw [ofLine, hlex] at h
    exact isOfLine_of_ofTokens (fun hnil => lex_ne_nil hrule (hnil ▸ hlex)) h

/-! ### The slice behind the arrow -/

/-- The tokens from a place on, if there are so many. -/
def sliceFrom? (tokens : List Token) (place : Nat) : Option (List Token) :=
  if place ≤ tokens.length then some (tokens.drop place) else none

/-- The definition that tokens give, looking at one token after the other and then at the slice
behind them, unless there is no such slice. -/
def ofTokens? (tokens : List Token) : Option (Except Fault Definition) :=
  match tokens[0]? with
  | some (Token.name name) =>
    if tokens[1]? = some .equals then
      (sliceFrom? tokens 2).map fun right =>
        (alternativesOfTokens (segments (· == .or) right)).map (⟨name, ·⟩)
    else some (.error .missingEquals)
  | some _ => some (.error .missingNonterminal)
  | none => some (.error .unexpectedBlankLine)

/-- **The slice is always there** when it is asked for. -/
theorem ofTokens?_eq (tokens : List Token) : ofTokens? tokens = some (ofTokens tokens) := by
  match tokens with
  | [] => rfl
  | [t] => cases t <;> rfl
  | .equals :: _ :: _ => rfl
  | .or :: _ :: _ => rfl
  | .quoted _ :: _ :: _ => rfl
  | .name name :: t :: right =>
    cases t with
    | equals =>
      simp only [ofTokens?, ofTokens, sliceFrom?, List.getElem?_cons_zero, List.getElem?_cons_succ,
        List.length_cons, Nat.le_add_left, if_true, Option.map_some, List.drop_succ_cons,
        List.drop_zero]
      cases alternativesOfTokens (segments (· == .or) right) <;> rfl
    | or => rfl
    | name => rfl
    | quoted => rfl

end Definition

/-! ### The faults of a text -/

namespace Grammar

variable {origin : Location} {text : String} {faults : List (Located Fault)} {l : Located Fault}

theorem not_inner_of_ofText (h : ofText origin text = .error faults) (hl : l ∈ faults) :
    l.value ≠ .unsplitAlternatives ∧ l.value ≠ .unexpectedBlankLine := by
  by_cases hmalformed : Malformed text
  · obtain rfl := Except.error.inj ((ofText_of_malformed hmalformed).symm.trans h)
    obtain ⟨i, line, -, hrule, hline, -⟩ := ((lineFaults_faultsOf origin text).mem_iff l).mp hl
    exact (Definition.isOfLine_of_ofLine hrule hline).not_inner
  · obtain ⟨ds, -, -, htext⟩ := exists_readsAs origin hmalformed
    obtain ⟨-, rfl⟩ := ofDefinitions_eq_error.mp (htext.symm.trans h)
    obtain ⟨d, -, used, -, -, rfl⟩ := mem_undefinedUses.mp hl
    exact ⟨Fault.noConfusion, Fault.noConfusion⟩

/-- **No text has a fault of the reader itself.** The loops over a line, a name and a quoted text
all end, with what is read of them, and a turn over a line takes a character at least. A rule line
has a token or a fault. The tokens behind an arrow are there when they are asked for. And whatever
is reported of a text, no fault is that of a mark left between alternatives or of a line without
tokens. -/
theorem inner_faults_unreachable (origin : Location) (text : String) :
    (∀ line : List Char, ∃ count ≤ line.length,
      Ends Token.turn? count (.ok ⟨[], line⟩) ((Token.lex line).map fun ts => ⟨ts, []⟩)) ∧
    (∀ tokens c rest s, Token.advance tokens c rest = .ok s →
      s.unread.length < (c :: rest).length) ∧
    (∀ cs : List Char, ∃ count ≤ cs.length,
      Ends Token.nameTurn? count ([], cs) (Token.takeName cs)) ∧
    (∀ cs : List Char, ∃ count ≤ cs.length + 1,
      Ends Quoted.turn? count (.within [] cs) (.over (Quoted.read cs))) ∧
    (∀ line, isRuleLine line = true → Token.lex line ≠ .ok []) ∧
    (∀ tokens, Definition.ofTokens? tokens = some (Definition.ofTokens tokens)) ∧
    ∀ faults, ofText origin text = .error faults → ∀ l ∈ faults,
      l.value ≠ .unsplitAlternatives ∧ l.value ≠ .unexpectedBlankLine := by
  refine ⟨Token.ends_turn [], fun _ _ _ _ => Token.length_lt_of_advance, fun cs => ?_,
    Quoted.ends_turn [], fun _ => lex_ne_nil, Definition.ofTokens?_eq,
    fun _ h _ => not_inner_of_ofText h⟩
  have htakes := Token.takesName_takeName cs
  refine ⟨_, ?_, Token.ends_nameTurn [] htakes⟩
  have hlength := congrArg List.length htakes.append_eq
  rw [List.length_append] at hlength
  exact hlength ▸ Nat.le_add_right _ _

end Grammar

end ContextFree
