import ContextFree.CommandLine.Arguments

/-!
# The program

Reads the arguments, the grammar file and a random key, and prints what the command makes of them.
-/

namespace ContextFree

/-- Why the system could not read a file. -/
def ReadFailure.ofError : IO.Error → ReadFailure
  | .noFileOrDirectory .. => .notFound
  | .permissionDenied .. => .permissionDenied
  | .inappropriateType .. => .folder
  | error => ⟨.other, toString error⟩

/-- The bytes of a file, or why they cannot be read. -/
def readContents (file : String) : IO (Except ReadFailure ByteArray) := do
  if file.toList.contains '\x00' then return .error .nullInName
  try return .ok (← IO.FS.readBinFile file)
  catch error => return .error (.ofError error)

/-- A word of four bytes, lowest first, from a place in some bytes on. -/
def wordAt (bytes : ByteArray) (place : Nat) : UInt32 :=
  let byte := fun i => (bytes.data[place + i]?.getD 0).toUInt32
  byte 0 ||| byte 1 <<< 8 ||| byte 2 <<< 16 ||| byte 3 <<< 24

/-- The stream of a random key. -/
def randomWords : IO Words := do
  let bytes ← IO.getRandomBytes 32
  return .ofKey (.ofList ((List.range 8).map fun i => wordAt bytes (4 * i)))

end ContextFree

/-- The program: exit code 2 and the usage for arguments that it cannot follow. -/
def main (arguments : List String) : IO UInt32 := do
  match ContextFree.Invocation.ofArguments? arguments with
  | none =>
    (← IO.getStderr).putStr ContextFree.usage
    return ContextFree.Printed.faultyExit
  | some invocation =>
    let contents ← ContextFree.readContents invocation.file
    let printed := invocation.run contents (← ContextFree.randomWords)
    (← IO.getStdout).putStr printed.stdout
    (← IO.getStderr).putStr printed.stderr
    return printed.exit
