/-!
# Quoted text

Text between quotes is written with a backslash before a quote or a backslash, and with `\n` and
`\t` for a newline and a tab. A backslash before any other character is a fault, and so is a quote
that is never closed.

## Main definitions

* `ContextFree.Quoted.unescape` - what a character after a backslash stands for.
* `ContextFree.Quoted.read` - the text up to the closing quote, and what comes after it.
-/

namespace ContextFree

namespace Quoted

/-- The character that an escape stands for, by the character after the backslash. -/
def unescape : Char → Option Char
  | 'n' => some '\n'
  | 't' => some '\t'
  | '"' => some '"'
  | '\\' => some '\\'
  | _ => none

/-- What reading quoted text comes to. -/
inductive Reading where
  /-- The text was closed; what comes after the closing quote is unread. -/
  | closed (text rest : List Char)
  /-- A backslash stands before a character that it does not escape. -/
  | unknownEscape (c : Char) (rest : List Char)
  /-- The characters ended before the text was closed. -/
  | unclosed
deriving DecidableEq, Repr

/-- Put a character in front of the text that was read. -/
def Reading.cons (c : Char) : Reading → Reading
  | closed text rest => closed (c :: text) rest
  | unknownEscape d rest => unknownEscape d rest
  | unclosed => unclosed

/-- Read on from behind the opening quote. -/
def read : List Char → Reading
  | [] => .unclosed
  | '"' :: rest => .closed [] rest
  | ['\\'] => .unclosed
  | '\\' :: c :: rest =>
    match unescape c with
    | some d => (read rest).cons d
    | none => .unknownEscape c rest
  | c :: rest => (read rest).cons c

/-- Reading leaves no more than it was given. -/
theorem length_le_of_read {cs text rest : List Char} (h : read cs = .closed text rest) :
    rest.length ≤ cs.length := by
  fun_induction read cs generalizing text with
  | case1 => simp at h
  | case2 => simp_all
  | case3 => simp at h
  | case4 c rest' d hd ih =>
    cases hr : read rest' with
    | closed t r =>
      rw [hr, Reading.cons] at h
      obtain ⟨-, rfl⟩ := Reading.closed.inj h
      have := ih hr
      simp only [List.length_cons]
      omega
    | unknownEscape => simp [hr, Reading.cons] at h
    | unclosed => simp [hr, Reading.cons] at h
  | case5 => simp at h
  | case6 c rest' _ _ _ ih =>
    cases hr : read rest' with
    | closed t r =>
      rw [hr, Reading.cons] at h
      obtain ⟨-, rfl⟩ := Reading.closed.inj h
      have := ih hr
      simp only [List.length_cons]
      omega
    | unknownEscape => simp [hr, Reading.cons] at h
    | unclosed => simp [hr, Reading.cons] at h

end Quoted

end ContextFree
