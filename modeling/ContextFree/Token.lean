/-!
# Tokens of a grammar line

A line of a grammar file is made of names, quoted texts, arrows and bars. A name holds any characters
but blanks, quotes, bars and equality signs, and it ends before an arrow.

## Main definitions

* `ContextFree.Token` - the tokens.
-/

namespace ContextFree

/-- A token of a grammar line. -/
inductive Token where
  /-- The arrow between a name and its alternatives, in any of its spellings. -/
  | equals
  /-- The bar between alternatives. -/
  | or
  /-- A name. -/
  | name (text : String)
  /-- Quoted text, without its quotes and escapes. -/
  | quoted (text : String)
deriving DecidableEq, Repr, Inhabited

end ContextFree
