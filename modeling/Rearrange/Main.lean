import Rearrange.CommandLine

/-!
# The program

Reads the two files, runs `CommandLine.run` on them and writes what it gives.
-/

namespace Rearrange

/-- The reading error with a given number, which may be negated. -/
def ReadError.ofCode (code : UInt32) (reason : String) : ReadError :=
  match min code.toNat (-code).toNat with
  | 2 => .notFound
  | 20 => .notDirectory
  | 21 => .isDirectory
  | 36 => .nameTooLong
  | n => .other s!"{reason} (os error {n})"

/-- The text of a file. -/
def CommandLine.readText (path : String) : IO (Except ReadError String) := do
  try
    return .ok (← IO.FS.readFile path)
  catch
    | .noFileOrDirectory .. => return .error .notFound
    | .inappropriateType _ code reason
    | .invalidArgument _ code reason => return .error (.ofCode code reason)
    | .permissionDenied .. => return .error (.other "Permission denied (os error 13)")
    | .userError _ => return .error (.other "stream did not contain valid UTF-8")
    | e => return .error (.other (toString e))

end Rearrange

open Rearrange

/-- Run the program. -/
def main (args : List String) : IO UInt32 := do
  let files ← match CommandLine.parse? args with
    | none => pure []
    | some i => do
      let library ← CommandLine.readText i.library
      let worksheet ← CommandLine.readText i.worksheet
      pure [(i.library, library), (i.worksheet, worksheet)]
  let outcome := CommandLine.run args fun path => (files.lookup path).getD (.error .notFound)
  IO.print outcome.stdout
  IO.eprint outcome.stderr
  return outcome.exit.toUInt32
