import ContextFree.CommandLine

/-!
# Arguments of the command

The arguments are the name of the grammar file, an option for the start symbol, and the word
`recognize` with an input or the word `sample` with options. An option takes the argument after it,
or what stands after an equality sign in it. After two dashes every argument is taken as it stands.

## Main definitions

* `ContextFree.Invocation.ofArguments?` - the invocation that arguments ask for.
* `ContextFree.usage` - what is printed for arguments that ask for none.
-/

namespace ContextFree

/-- What is printed for arguments that ask for nothing that can be done. -/
def usage : String :=
  "Usage: FILE [--start SYMBOL] recognize [--] INPUT\n" ++
  "       FILE [--start SYMBOL] sample [--amount AMOUNT] [--seed SEED] [--depth DEPTH]\n"

/-- The value of an option in front of some arguments, and the arguments after it. The option has a
long name and may have a letter. -/
def option? (long : String) (letter : Option Char) : List String → Option (String × List String)
  | [] => none
  | argument :: rest =>
    let inline := ("--" ++ long ++ "=").toList
    if inline.isPrefixOf argument.toList then
      some (String.ofList (argument.toList.drop inline.length), rest)
    else if argument = "--" ++ long || letter.any fun c => argument = "-" ++ String.singleton c then
      match rest with
      | value :: rest => some (value, rest)
      | [] => none
    else none

/-- Set an option of a sample command from the arguments in front, if they begin with one. -/
def sampleOption? (amount depth : Nat) (seed : Option UInt64) (arguments : List String) :
    Option ((Nat × Nat × Option UInt64) × List String) :=
  match option? "amount" (some 'n') arguments with
  | some (value, rest) => value.toNat?.map fun n => ((n, depth, seed), rest)
  | none =>
    match option? "depth" (some 'd') arguments with
    | some (value, rest) => value.toNat?.map fun n => ((amount, n, seed), rest)
    | none =>
      match option? "seed" none arguments with
      | some (value, rest) =>
        (value.toNat?.filter (· < UInt64.size)).map fun n => ((amount, depth, some (UInt64.ofNat n)), rest)
      | none => none

/-- The sample command that options ask for, at most so many of them. -/
def sampleCommand? : Nat → Nat → Nat → Option UInt64 → List String → Option Command
  | _, amount, depth, seed, [] => some (.sample amount depth seed)
  | 0, _, _, _, _ => none
  | options + 1, amount, depth, seed, arguments =>
    match sampleOption? amount depth seed arguments with
    | some ((amount, depth, seed), rest) => sampleCommand? options amount depth seed rest
    | none => none

/-- The command that arguments ask for. -/
def Command.ofArguments? : List String → Option Command
  | ["recognize", "--", input] => some (.recognize input)
  | ["recognize", input] =>
    if ['-'].isPrefixOf input.toList && input ≠ "-" then none else some (.recognize input)
  | "sample" :: rest =>
    sampleCommand? rest.length Command.defaultAmount Command.defaultDepth none rest
  | _ => none

namespace Invocation

/-- The invocation that arguments ask for: the start symbol may stand before or after the file. -/
def ofArguments? (arguments : List String) : Option Invocation :=
  match option? "start" (some 's') arguments with
  | some (start, file :: rest) => (Command.ofArguments? rest).map fun c => ⟨file, some start, c⟩
  | some (_, []) => none
  | none =>
    match arguments with
    | [] => none
    | file :: rest =>
      match option? "start" (some 's') rest with
      | some (start, rest) => (Command.ofArguments? rest).map fun c => ⟨file, some start, c⟩
      | none => (Command.ofArguments? rest).map fun c => ⟨file, none, c⟩

end Invocation

end ContextFree
