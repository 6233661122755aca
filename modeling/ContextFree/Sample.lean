import ContextFree.Height
import ContextFree.Words

/-!
# Random sentences

A sentence is made by expanding nonterminals from left to right. Above the depth limit one of the
alternatives with a height is picked at random; from the limit on, the lowest alternative is taken
and no word is spent. Below the limit every step lowers the height, so a derivation is never deeper
than the limit and the tallest nonterminal together.

## Main definitions

* `ContextFree.SampleFault` - why there is no sentence.
* `ContextFree.Grammar.sample` - a sentence derived from a name.
* `ContextFree.Grammar.samples` - some sentences, one after the other.
-/

namespace ContextFree

/-- Why a nonterminal has no sentence. -/
inductive SampleFault where
  /-- The name has no definition. -/
  | undefinedNonterminal (name : String)
  /-- The nonterminal has no finite derivation tree. -/
  | unproductive (name : String)
deriving DecidableEq, Repr, Inhabited

/-- The fault in words. -/
def SampleFault.message : SampleFault → String
  | undefinedNonterminal name => "No definition for nonterminal `" ++ name ++ "`"
  | unproductive name => "Nonterminal `" ++ name ++ "` never derives a sentence"

/-- The alternatives of a definition that have a height, each with its height. -/
def Definition.productive (d : Definition) (h : Heights) : List (Alternative × Nat) :=
  d.alternatives.filterMap fun a => (a.height? h).map fun height => (a, height)

/-- The first of the lowest alternatives. -/
def lowest? (options : List (Alternative × Nat)) : Option (Alternative × Nat) :=
  (options.map Prod.snd).min?.bind fun least => options.find? fun option => option.2 == least

/-- What making a sentence comes to: the sentence or a fault, and the words that are left. -/
abbrev Sampled := Except SampleFault (List String) × Words

namespace Grammar

/-- The alternative that a nonterminal is expanded by: a random one if there is a choice to make, the
lowest otherwise. -/
def select (h : Heights) (random : Bool) (d : Definition) (w : Words) :
    Option (Alternative × Nat) × Words :=
  if random then w.pick (d.productive h) else (lowest? (d.productive h), w)

/-- The sentence of a row of symbols, given how to expand a name. -/
def expandAll (expandName : String → Words → Sampled) : Alternative → Words → Sampled
  | [], w => (.ok [], w)
  | .terminal text :: rest, w =>
    match expandAll expandName rest w with
    | (.ok sentence, w) => (.ok (characters text ++ sentence), w)
    | (.error fault, w) => (.error fault, w)
  | .nonterminal name :: rest, w =>
    match expandName name w with
    | (.error fault, w) => (.error fault, w)
    | (.ok front, w) =>
      match expandAll expandName rest w with
      | (.ok sentence, w) => (.ok (front ++ sentence), w)
      | (.error fault, w) => (.error fault, w)

/-- The sentence of a name met at a depth, for derivations of at most the given number of levels. -/
def expand (g : Grammar) (h : Heights) (limit : Nat) : Nat → Nat → String → Words → Sampled
  | 0, _, name, w => (.error (.unproductive name), w)
  | levels + 1, depth, name, w =>
    match g.find? name with
    | none => (.error (.undefinedNonterminal name), w)
    | some d =>
      match select h (decide (depth < limit)) d w with
      | (none, w) => (.error (.unproductive name), w)
      | (some (alternative, _), w) =>
        expandAll (g.expand h limit levels (depth + 1)) alternative w

/-- A sentence derived from a name, one token per character. Heights are at most the number of
definitions, which bounds the levels below the depth limit. -/
def sample (g : Grammar) (start : String) (limit : Nat) (w : Words) : Sampled :=
  g.expand g.heights limit (limit + g.definitions.length + 1) 0 start w

/-- Sentences derived from a name in turn from one supply of words, up to the first fault. -/
def samples (g : Grammar) (start : String) (limit : Nat) :
    Nat → Words → List (List String) × Option SampleFault × Words
  | 0, w => ([], none, w)
  | amount + 1, w =>
    match g.sample start limit w with
    | (.error fault, w) => ([], some fault, w)
    | (.ok sentence, w) =>
      let (sentences, fault, w) := g.samples start limit amount w
      (sentence :: sentences, fault, w)

end Grammar

end ContextFree
