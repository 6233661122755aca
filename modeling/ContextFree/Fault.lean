/-!
# Faults in grammar files

A fault names what is wrong with a line, with the use of a name, or with the file itself.

## Main definitions

* `ContextFree.ReadFailure` - why a file could not be read.
* `ContextFree.Fault` - what is wrong with a grammar file.
* `ContextFree.Fault.message` - the fault in words.
* `ContextFree.Fault.alike` - faults that count as the same.
-/

namespace ContextFree

/-- The kinds of reasons why a file could not be read. -/
inductive ReadFailure.Kind where
  /-- No file has the name. -/
  | notFound
  /-- The file may not be read. -/
  | permissionDenied
  /-- The file does not hold text. -/
  | invalidData
  /-- Any other reason. -/
  | other
deriving DecidableEq, Repr, Inhabited

/-- Why a file could not be read. -/
structure ReadFailure where
  /-- The kind of reason. -/
  kind : ReadFailure.Kind
  /-- The reason in words. -/
  text : String
deriving DecidableEq, Repr, Inhabited

namespace ReadFailure

/-- No file has the name. -/
def notFound : ReadFailure := ⟨.notFound, "No such file or directory (os error 2)"⟩

/-- The file may not be read. -/
def permissionDenied : ReadFailure := ⟨.permissionDenied, "Permission denied (os error 13)"⟩

/-- A name leads through something that is no folder. -/
def notAFolder : ReadFailure := ⟨.other, "Not a directory (os error 20)"⟩

/-- The name is that of a folder. -/
def folder : ReadFailure := ⟨.other, "Is a directory (os error 21)"⟩

/-- A file name holds a null character. -/
def nullInName : ReadFailure := ⟨.other, "file name contained an unexpected NUL byte"⟩

/-- The bytes of the file are no text. -/
def notText : ReadFailure := ⟨.invalidData, "stream did not contain valid UTF-8"⟩

end ReadFailure

/-- What is wrong with a grammar file. -/
inductive Fault where
  /-- The name at the beginning of a line has no arrow after it. -/
  | missingEquals
  /-- The alternatives of a line hold an arrow. -/
  | unexpectedEquals
  /-- A line does not begin with a name. -/
  | missingNonterminal
  /-- Quoted text is never closed. -/
  | unmatchedQuote
  /-- A backslash in quoted text stands before a character that it does not escape. -/
  | unknownEscape (c : Char)
  /-- A name is used that no line defines. -/
  | undefinedNonterminal (name : String)
  /-- An alternative holds the mark between alternatives. -/
  | unsplitAlternatives
  /-- A line without tokens was taken for a definition. -/
  | unexpectedBlankLine
  /-- The file could not be read. -/
  | unreadable (failure : ReadFailure)
deriving DecidableEq, Repr, Inhabited

namespace Fault

/-- The fault in words. -/
def message : Fault → String
  | missingEquals => "Expected `=` after nonterminal"
  | unexpectedEquals => "Unexpected `=` encountered"
  | missingNonterminal => "Tried to define something other than a nonterminal"
  | unmatchedQuote => "Unmatched quotes"
  | unknownEscape c => "Unknown escape `\\" ++ String.singleton c ++ "` in terminal"
  | undefinedNonterminal name => "Could not find definition for `" ++ name ++ "`"
  | unsplitAlternatives =>
    "Rewrite was not fully split (this is a problem with chartparse, not the grammar)"
  | unexpectedBlankLine =>
    "Blank line encountered in rule parser (this is a problem with chartparse, not the grammar)"
  | unreadable failure => "File error: " ++ failure.text

/-- Faults count as the same when they are equal; failures to read a file need only be of one kind. -/
def alike : Fault → Fault → Bool
  | unreadable a, unreadable b => a.kind == b.kind
  | a, b => a == b

end Fault

end ContextFree
