import ContextFree.GrammarText
import ContextFree.Outcome
import ContextFree.Sample
import ContextFree.Words.ChaCha

/-!
# The command

The command reads a grammar file and either recognizes an input or samples sentences. Faults of the
grammar go to standard error as a report, with exit code 2; an input that is rejected has exit code
1. What the command prints is a function of its arguments, the bytes of the file and, for sampling
without a seed, a supply of random words.

## Main definitions

* `ContextFree.Invocation` - the arguments of the command.
* `ContextFree.Invocation.run` - what the command prints, and its exit code.
-/

namespace ContextFree

/-- What the command is asked to do with the grammar. -/
inductive Command where
  /-- Recognize an input, one token per character. -/
  | recognize (input : String)
  /-- Sample some sentences with a depth limit, from a seed if one is given. -/
  | sample (amount : Nat) (depth : Nat) (seed : Option UInt64)
deriving DecidableEq, Repr, Inhabited

namespace Command

/-- The number of sentences if none is given. -/
def defaultAmount : Nat := 1

/-- The depth limit if none is given. -/
def defaultDepth : Nat := 8

end Command

/-- The arguments of the command. -/
structure Invocation where
  /-- The name of the grammar file. -/
  file : String
  /-- The name to derive sentences from, instead of the first of the file. -/
  start : Option String
  /-- What is to be done. -/
  command : Command
deriving DecidableEq, Repr, Inhabited

/-- What the command prints, and its exit code. -/
structure Printed where
  /-- The exit code. -/
  exit : UInt32
  /-- What goes to standard output. -/
  stdout : String
  /-- What goes to standard error. -/
  stderr : String
deriving DecidableEq, Repr, Inhabited

namespace Printed

/-- The exit code of an input that is no sentence. -/
def rejectedExit : UInt32 := 1

/-- The exit code of a faulty grammar. -/
def faultyExit : UInt32 := 2

/-- Faults on standard error, after what was printed before them. -/
def faulty {α : Type} (stdout : String) (message : α → String) (faults : List (Located α)) :
    Printed :=
  ⟨faultyExit, stdout, report message faults ++ "\n"⟩

end Printed

/-- A derivation under its number. -/
def numbered (entry : Derivation × Nat) : String :=
  "\n#" ++ toString entry.2 ++ "\n" ++ entry.1.text

/-- An outcome as the command prints it. -/
def Outcome.printed (o : Outcome) : Printed :=
  match o.derivations with
  | [] => ⟨Printed.rejectedExit, "rejected\n", ""⟩
  | [d] => ⟨0, "accepted\n" ++ d.text, ""⟩
  | ds =>
    ⟨0, "accepted, " ++ toString ds.length ++ " derivations\n" ++
      String.join ((ds.zipIdx 1).map numbered), ""⟩

namespace Grammar

/-- Sampled sentences as the command prints them, one a line. -/
def printSamples (g : Grammar) (start : String) (amount depth : Nat) (w : Words) : Printed :=
  let (sentences, fault, _) := g.samples start depth amount w
  let stdout := String.join (sentences.map fun sentence => String.join sentence ++ "\n")
  match fault with
  | none => ⟨0, stdout, ""⟩
  | some fault => .faulty stdout SampleFault.message [⟨.ofFile "", fault⟩]

end Grammar

/-- What the command prints for the contents of its file; the words are for sampling without a
seed. -/
def Invocation.run (i : Invocation) (contents : Except ReadFailure ByteArray) (entropy : Words) :
    Printed :=
  match Grammar.ofFile i.file contents with
  | .error faults => .faulty "" Fault.message faults
  | .ok g =>
    let start := i.start.getD g.start
    match g.startFaults start (.ofFile i.file) with
    | [] =>
      match i.command with
      | .recognize input => (g.rules.recognize start (characters input)).printed
      | .sample amount depth seed =>
        g.printSamples start amount depth ((seed.map Words.ofSeed).getD entropy)
    | faults => .faulty "" Fault.message faults

end ContextFree
