import ContextFree.Grammar
import ContextFree.Segments
import ContextFree.Text.Lines
import ContextFree.Token.Lexer

/-!
# Lines that define a name

A line of a grammar file that is not blank and does not begin with a semicolon defines a name: the
name, an arrow, and the alternatives with bars between them.

## Main definitions

* `ContextFree.isRuleLine` - the line is neither blank nor a comment.
* `ContextFree.ruleLines` - such lines of a text, numbered.
* `ContextFree.Definition.ofLine` - the definition that a line gives.
-/

namespace ContextFree

/-- The symbol that a token of an alternative stands for. -/
def Symbol.ofToken : Token → Except Fault Symbol
  | .equals => .error .unexpectedEquals
  | .or => .error .unsplitAlternatives
  | .name text => .ok (.nonterminal text)
  | .quoted text => .ok (.terminal text)

/-- The alternative that tokens stand for, or the first fault among them. -/
def Alternative.ofTokens : List Token → Except Fault Alternative
  | [] => .ok []
  | t :: rest =>
    match Symbol.ofToken t with
    | .error fault => .error fault
    | .ok symbol =>
      match Alternative.ofTokens rest with
      | .error fault => .error fault
      | .ok symbols => .ok (symbol :: symbols)

/-- The alternatives that rows of tokens stand for, or the first fault among them. -/
def alternativesOfTokens : List (List Token) → Except Fault (List Alternative)
  | [] => .ok []
  | tokens :: rest =>
    match Alternative.ofTokens tokens with
    | .error fault => .error fault
    | .ok alternative =>
      match alternativesOfTokens rest with
      | .error fault => .error fault
      | .ok alternatives => .ok (alternative :: alternatives)

namespace Definition

/-- The definition that the tokens of a line give. -/
def ofTokens : List Token → Except Fault Definition
  | .name name :: .equals :: right =>
    match alternativesOfTokens (segments (· == .or) right) with
    | .error fault => .error fault
    | .ok alternatives => .ok ⟨name, alternatives⟩
  | .name _ :: _ => .error .missingEquals
  | _ :: _ => .error .missingNonterminal
  | [] => .error .unexpectedBlankLine

/-- The definition that a line gives. -/
def ofLine (line : List Char) : Except Fault Definition :=
  match Token.lex line with
  | .error fault => .error fault
  | .ok tokens => ofTokens tokens

end Definition

/-- The line is neither blank nor a comment. -/
def isRuleLine (line : List Char) : Bool :=
  match line.dropWhile isBlank with
  | [] => false
  | c :: _ => c != ';'

/-- The lines of a text that are neither blank nor comments, with their numbers counted from one. -/
def ruleLines (text : List Char) : List (List Char × Nat) :=
  ((lines text).zipIdx 1).filter fun entry => isRuleLine entry.1

end ContextFree
