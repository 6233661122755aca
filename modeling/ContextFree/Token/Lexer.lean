import ContextFree.Fault
import ContextFree.Text.Blank
import ContextFree.Text.Quoted
import ContextFree.Token

/-!
# Reading tokens

The tokens of a line are read from left to right. An arrow is written `=`, `->` or `::=`. The
characters of arrows are taken together as far as they go; if they do not spell an arrow, they begin
a name. Inside a name, `->` and `::=` end it, and so does every character that a name cannot hold.

## Main definitions

* `ContextFree.Token.takeName` - the name that characters begin with.
* `ContextFree.Token.takeQuoted` - the quoted text that characters begin with.
* `ContextFree.Token.step` - one token, or one blank.
* `ContextFree.Token.lex` - the tokens of a line.

## Main results

* `ContextFree.Token.length_le_of_step` - a step takes the first character at least.
-/

namespace ContextFree

namespace Token

/-- A name may hold the character. -/
def isNameChar (c : Char) : Bool := !isBlank c && c != '|' && c != '"' && c != '='

/-- The characters begin with an arrow that ends a name. -/
def atArrow : List Char → Bool
  | '-' :: '>' :: _ => true
  | ':' :: ':' :: '=' :: _ => true
  | _ => false

/-- The name that characters begin with, and the characters after it. -/
def takeName : List Char → List Char × List Char
  | [] => ([], [])
  | c :: rest =>
    if isNameChar c && !atArrow (c :: rest) then
      let (word, after) := takeName rest
      (c :: word, after)
    else ([], c :: rest)

/-- The quoted text that characters begin with, whatever the first of them, and the characters that are
left unread; those are none if the text is never closed. -/
def takeQuoted (cs : List Char) : Except Fault Token × List Char :=
  match Quoted.read (cs.drop 1) with
  | .closed text after => (.ok (.quoted (String.ofList text)), after)
  | .unknownEscape c after => (.error (.unknownEscape c), after)
  | .unclosed => (.error .unmatchedQuote, [])

/-- The character occurs in an arrow. -/
def isArrowChar (c : Char) : Bool := c == ':' || c == '-' || c == '>' || c == '='

/-- The characters spell an arrow. -/
def isArrow (cs : List Char) : Bool :=
  cs == ['='] || cs == ['-', '>'] || cs == [':', ':', '=']

/-- The token that begins with the first of some characters, nothing for a blank, and the characters
after it. -/
def step (c : Char) (rest : List Char) : Except Fault (Option Token × List Char) :=
  if c == '=' || c == ':' || c == '-' then
    let run := c :: rest.takeWhile isArrowChar
    let after := rest.dropWhile isArrowChar
    if isArrow run then .ok (some .equals, after)
    else
      let (word, after) := takeName after
      .ok (some (.name (String.ofList (run ++ word))), after)
  else if c == '|' then .ok (some .or, rest)
  else if c == '"' then
    match takeQuoted (c :: rest) with
    | (.ok token, after) => .ok (some token, after)
    | (.error fault, _) => .error fault
  else if isBlank c then .ok (none, rest)
  else
    let (word, after) := takeName rest
    .ok (some (.name (String.ofList (c :: word))), after)

theorem length_takeName_le (cs : List Char) : (takeName cs).2.length ≤ cs.length := by
  induction cs with
  | nil => simp [takeName]
  | cons c rest ih =>
    rw [takeName]
    split
    · exact Nat.le_succ_of_le ih
    · exact Nat.le_refl _

theorem length_le_of_takeQuoted {c : Char} {rest after : List Char} {token : Token}
    (h : takeQuoted (c :: rest) = (.ok token, after)) : after.length ≤ rest.length := by
  unfold takeQuoted at h
  split at h
  · next text after' hread =>
    obtain ⟨-, rfl⟩ := Prod.mk.inj h
    exact Quoted.length_le_of_read hread
  · simp at h
  · simp at h

theorem length_le_of_step {c : Char} {rest after : List Char} {t : Option Token}
    (h : step c rest = .ok (t, after)) : after.length ≤ rest.length := by
  have hdrop : (rest.dropWhile isArrowChar).length ≤ rest.length :=
    (List.dropWhile_sublist isArrowChar).length_le
  unfold step at h
  split at h
  · dsimp only at h
    split at h
    · obtain ⟨-, rfl⟩ := Prod.mk.inj (Except.ok.inj h)
      exact hdrop
    · obtain ⟨-, rfl⟩ := Prod.mk.inj (Except.ok.inj h)
      exact Nat.le_trans (length_takeName_le _) hdrop
  · split at h
    · obtain ⟨-, rfl⟩ := Prod.mk.inj (Except.ok.inj h)
      exact Nat.le_refl _
    · split at h
      · split at h
        · next token after' htake =>
          obtain ⟨-, rfl⟩ := Prod.mk.inj (Except.ok.inj h)
          exact length_le_of_takeQuoted htake
        · exact absurd h (by simp)
      · split at h
        · obtain ⟨-, rfl⟩ := Prod.mk.inj (Except.ok.inj h)
          exact Nat.le_refl _
        · obtain ⟨-, rfl⟩ := Prod.mk.inj (Except.ok.inj h)
          exact length_takeName_le _

/-- The tokens of a line, or its first fault. -/
def lex : List Char → Except Fault (List Token)
  | [] => .ok []
  | c :: rest =>
    match h : step c rest with
    | .error fault => .error fault
    | .ok (t, after) =>
      have : after.length < rest.length + 1 := Nat.lt_succ_of_le (length_le_of_step h)
      match lex after with
      | .error fault => .error fault
      | .ok tokens => .ok (t.toList ++ tokens)
termination_by cs => cs.length

end Token

end ContextFree
