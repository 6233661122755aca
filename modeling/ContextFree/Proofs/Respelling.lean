import ContextFree.Proofs.Lexing

/-!
# Tokens written again

The tokens of a line can be written one after the other with single blanks between them: an arrow as
an equality sign, a name as it is, and a text between quotes with no escapes but those of quotes and
backslashes. What is written is read as the same tokens. What comes next is always a blank now, and
a token does not depend on what came next before: a name was taken up to where it had to end, so it
holds no arrow that could cut it, and arrow characters that began a name are taken together again.

## Main definitions

* `ContextFree.Token.written` - a token as it is written.
* `ContextFree.Token.row` - tokens with single blanks between them.

## Main results

* `ContextFree.Token.Takes.reads` - a token that was taken is read again.
* `ContextFree.Token.lex_row` - **the tokens of a line are read again**.
-/

namespace ContextFree

namespace Token

variable {c : Char} {cs rest after line : List Char} {token : Token} {ts : List Token}

/-- A token as it is written. -/
def written : Token → List Char
  | equals => ['=']
  | or => ['|']
  | name text => text.toList
  | quoted text => '"' :: (Quoted.protect text.toList ++ ['"'])

/-- Tokens with single blanks between them. -/
def row (ts : List Token) : List Char := [' '].intercalate (ts.map written)

/-- A name that began with arrow characters is taken again: they are the same characters, for the
name goes on with another, and they spell as little as before. -/
theorem Takes.sign_again {word : List Char} (hc : c = '=' ∨ c = ':' ∨ c = '-')
    (h : isArrow (c :: rest.takeWhile isArrowChar) = false)
    (hname : TakesName (rest.dropWhile isArrowChar) word after) {more : List Char}
    (hmore : Detached more) :
    Takes c (rest.takeWhile isArrowChar ++ word ++ more)
      (some (.name (String.ofList (c :: (rest.takeWhile isArrowChar ++ word))))) more := by
  have hrun : ∀ d ∈ rest.takeWhile isArrowChar, isArrowChar d = true := fun _ =>
    isArrowChar_of_mem_takeWhile
  have hword : word.takeWhile isArrowChar = [] := takeWhile_eq_nil_of_dropWhile hname.append_eq
  have hwhole : word.dropWhile isArrowChar = word := dropWhile_of_takeWhile_eq_nil hword
  obtain ⟨htake, hdrop⟩ := takeWhile_isArrowChar_append hmore word
  have hfront : (rest.takeWhile isArrowChar ++ word ++ more).takeWhile isArrowChar =
      rest.takeWhile isArrowChar := by
    rw [List.append_assoc, List.takeWhile_append_of_pos hrun, htake, hword, List.append_nil]
  have hback : (rest.takeWhile isArrowChar ++ word ++ more).dropWhile isArrowChar =
      word ++ more := by
    rw [List.append_assoc, List.dropWhile_append_of_pos hrun, hdrop, hwhole]
  have hspells : isArrow
      (c :: (rest.takeWhile isArrowChar ++ word ++ more).takeWhile isArrowChar) = false := by
    rwa [hfront]
  have htakes := Takes.sign hc hspells (hback ▸ hname.detached hmore)
  rwa [hfront] at htakes

/-- **A token that was taken is read again.** -/
theorem Takes.reads (h : Takes c rest (some token) after) : Reads token.written [token] := by
  cases h with
  | arrow h => exact reads_arrow rfl
  | bar hc => exact reads_bar
  | @quoted text _ hc hread =>
    refine reads_of_step fun more _ => Takes.step_eq (.quoted rfl ?_)
    rw [List.append_assoc, String.toList_ofList]
    exact Quoted.read_protect text more
  | sign hc h hname =>
    rw [written, String.toList_ofList]
    exact reads_of_step fun more hmore => (Takes.sign_again hc h hname hmore).step_eq
  | @word word _ hchar hcolon hdash hname =>
    rw [written, String.toList_ofList]
    exact reads_of_step fun more hmore =>
      Takes.step_eq (.word hchar hcolon hdash (hname.detached hmore))

/-- The tokens of a line were taken from somewhere. -/
theorem exists_takes_of_mem (h : lex line = .ok ts) :
    ∀ token ∈ ts, ∃ c rest after, Takes c rest (some token) after := by
  induction line using lex_induction generalizing ts with
  | nil =>
    rw [lex] at h
    obtain rfl := Except.ok.inj h
    simp
  | fault hstep => exact absurd ((lex_cons_of_fault hstep).symm.trans h) (by simp)
  | @takes c rest t after htakes ih =>
    rw [lex_cons htakes] at h
    cases hlex : lex after with
    | error fault => simp [hlex, Except.map] at h
    | ok us =>
      rw [hlex] at h
      obtain rfl := Except.ok.inj h
      intro token htoken
      rcases List.mem_append.mp htoken with hhere | hlater
      · obtain rfl := Option.mem_toList.mp hhere
        exact ⟨c, rest, after, htakes⟩
      · exact ih hlex token hlater

/-! ### Rows of tokens -/

theorem reads_row : ∀ {ts : List Token}, (∀ token ∈ ts, Reads token.written [token]) →
    Reads (row ts) ts
  | [], _ => reads_nil
  | [token], h => by
    rw [row, List.map_singleton, List.intercalate_singleton]
    exact h token List.mem_cons_self
  | token :: next :: ts, h => by
    have hrest := reads_row fun u hu => h u (List.mem_cons_of_mem token hu)
    have hrow : row (token :: next :: ts) = token.written ++ ' ' :: row (next :: ts) := by
      simp [row, List.intercalate_cons_cons]
    rw [hrow]
    exact (h token List.mem_cons_self).append_blank hrest

theorem ne_of_isArrowChar (h : isArrowChar c = true) : isBlank c = false ∧ c ≠ '|' ∧ c ≠ '"' := by
  refine ⟨Bool.eq_false_iff.mpr fun hblank => ?_, ?_, ?_⟩
  · exact absurd h (by simp [isArrowChar_of_isBlank hblank])
  · rintro rfl
    exact absurd h (by decide)
  · rintro rfl
    exact absurd h (by decide)

theorem TakesName.name_chars {word : List Char} (h : TakesName cs word after) :
    ∀ d ∈ word, isBlank d = false ∧ d ≠ '|' ∧ d ≠ '"' := fun d hd =>
  have hchar := isNameChar_iff.mp (h.isNameChar d hd)
  ⟨hchar.1, hchar.2.1, hchar.2.2.1⟩

/-- A name that was taken is not empty, and it holds nothing that keeps tokens apart. -/
theorem Takes.name_chars {text : String} (h : Takes c rest (some (.name text)) after) :
    text ≠ "" ∧ ∀ d ∈ text.toList, isBlank d = false ∧ d ≠ '|' ∧ d ≠ '"' := by
  have hne : ∀ tail, String.ofList (c :: tail) ≠ "" := fun tail heq =>
    absurd (congrArg String.toList heq) (by simp)
  cases h with
  | sign hc _ hname =>
    refine ⟨hne _, ?_⟩
    rw [String.toList_ofList, List.forall_mem_cons, List.forall_mem_append]
    refine ⟨ne_of_isArrowChar (isArrowChar_of_start hc), fun d hd => ?_, hname.name_chars⟩
    exact ne_of_isArrowChar (isArrowChar_of_mem_takeWhile hd)
  | word hchar hcolon hdash hname =>
    refine ⟨hne _, ?_⟩
    rw [String.toList_ofList, List.forall_mem_cons]
    obtain ⟨hblank, hbar, hquote, -⟩ := isNameChar_iff.mp hchar
    exact ⟨⟨hblank, hbar, hquote⟩, hname.name_chars⟩

/-- **The tokens of a line are read again** from the row of them, and nothing that keeps names apart
from other tokens is in a name. -/
theorem lex_row (h : lex line = .ok ts) :
    lex (row ts) = .ok ts ∧
      ∀ text, .name text ∈ ts →
        text ≠ "" ∧ ∀ d ∈ text.toList, isBlank d = false ∧ d ≠ '|' ∧ d ≠ '"' := by
  have htakes := exists_takes_of_mem h
  constructor
  · refine (reads_row fun token htoken => ?_).lex_eq
    obtain ⟨c, rest, after, htoken⟩ := htakes token htoken
    exact htoken.reads
  · intro text htext
    obtain ⟨c, rest, after, htoken⟩ := htakes _ htext
    exact htoken.name_chars

/-- The tokens of a line with names of both kinds, an arrow, and every character that is escaped in
one way of writing or in the other. -/
def mixed : List Token :=
  [.name "a:b", .name "::=-x", .or, .quoted "\"\n\\", .name "y-", .name "->==z", .equals,
    .quoted ""]

theorem mixed_read_again :
    lex "a:b::=-x|\"\\\"\\n\\\\\"y-->==z ->\"\"".toList = .ok mixed ∧
      row mixed = "a:b ::=-x | \"\\\"\n\\\\\" y- ->==z = \"\"".toList ∧
      lex (row mixed) = .ok mixed ∧
      ∀ text, .name text ∈ mixed →
        text ≠ "" ∧ ∀ d ∈ text.toList, isBlank d = false ∧ d ≠ '|' ∧ d ≠ '"' := by
  have hline : lex "a:b::=-x|\"\\\"\\n\\\\\"y-->==z ->\"\"".toList = .ok mixed := by decide +kernel
  exact ⟨hline, by decide +kernel, lex_row hline⟩

end Token

end ContextFree
