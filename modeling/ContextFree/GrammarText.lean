import ContextFree.GrammarText.RuleLine
import ContextFree.Located

/-!
# Grammars as texts

A grammar is read from a text line by line. All lines with a fault are reported; if there is none,
lines for one name are joined, under the location of the first of them, and every use of a name that
no line defines is reported. The grammar begins with the name of the first line.

## Main definitions

* `ContextFree.join` - definitions of one name made one.
* `ContextFree.undefinedUses` - the uses of names that are not defined.
* `ContextFree.Grammar.ofText` - the grammar of a text, or its faults.
* `ContextFree.Grammar.ofFile` - the same for the contents of a file.
* `ContextFree.Grammar.startFaults` - whether sentences may be derived from a name.
-/

namespace ContextFree

/-- Add a definition to a list: alternatives for a name that is there are added to those it has. -/
def joinOne (d : Located Definition) : List (Located Definition) → List (Located Definition)
  | [] => [d]
  | e :: rest =>
    if e.value.name = d.value.name then
      ⟨e.location, ⟨e.value.name, e.value.alternatives ++ d.value.alternatives⟩⟩ :: rest
    else e :: joinOne d rest

/-- Join the definitions of one name, in the order in which names and alternatives first appear. -/
def join (definitions : List (Located Definition)) : List (Located Definition) :=
  definitions.foldl (fun joined d => joinOne d joined) []

/-- The uses of names that no definition of the list defines, each at the location of the definition
that uses it. -/
def undefinedUses (definitions : List (Located Definition)) : List (Located Fault) :=
  definitions.flatMap fun d =>
    (d.value.uses.filter fun name => !definitions.any fun e => e.value.name == name).map fun name =>
      ⟨d.location, .undefinedNonterminal name⟩

namespace Grammar

/-- The grammar of a list of definitions, or the uses that it leaves undefined. -/
def ofDefinitions (definitions : List (Located Definition)) :
    Except (List (Located Fault)) Grammar :=
  let joined := join definitions
  match undefinedUses joined with
  | [] =>
    .ok ⟨(definitions.head?.map fun d => d.value.name).getD "", joined.map Located.value⟩
  | faults => .error faults

/-- The rule lines of a text, each read as a definition and located in a file. -/
def readLines (origin : Location) (text : List Char) : List (Located (Except Fault Definition)) :=
  (ruleLines text).map fun entry => ⟨origin.atLine entry.2, Definition.ofLine entry.1⟩

/-- The faults among located readings. -/
def faultsOf (readings : List (Located (Except Fault Definition))) : List (Located Fault) :=
  readings.filterMap fun reading =>
    match reading.value with
    | .error fault => some ⟨reading.location, fault⟩
    | .ok _ => none

/-- The definitions among located readings. -/
def definitionsOf (readings : List (Located (Except Fault Definition))) :
    List (Located Definition) :=
  readings.filterMap fun reading =>
    match reading.value with
    | .error _ => none
    | .ok d => some ⟨reading.location, d⟩

/-- The grammar of a text, or its faults. -/
def ofText (origin : Location) (text : String) : Except (List (Located Fault)) Grammar :=
  let readings := readLines origin text.toList
  match faultsOf readings with
  | [] => ofDefinitions (definitionsOf readings)
  | faults => .error faults

/-- The grammar of a file, given its name and its bytes, or its faults. -/
def ofFile (name : String) (contents : Except ReadFailure ByteArray) :
    Except (List (Located Fault)) Grammar :=
  match contents with
  | .error failure => .error [⟨.ofFile name, .unreadable failure⟩]
  | .ok bytes =>
    match String.fromUTF8? bytes with
    | none => .error [⟨.ofFile name, .unreadable .notText⟩]
    | some text => ofText (.ofFile name) text

/-- The fault of deriving sentences from a name that has no definition. -/
def startFaults (g : Grammar) (start : String) (origin : Location) : List (Located Fault) :=
  if g.defines start then [] else [⟨origin, .undefinedNonterminal start⟩]

end Grammar

end ContextFree
