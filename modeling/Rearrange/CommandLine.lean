import Rearrange.Derivation.Search
import Rearrange.FileTree
import Rearrange.Text.Loading

/-!
# The command line

The program takes a library file and a worksheet file and tries to prove the goals of the
worksheet one after the other.  For a goal that it proves it prints the new steps, and for
another one a line that says so.  A step is printed with its place at that moment, counted
from one in display order, its statement, and the reason it holds: `hyp`, `?` for a goal that
is still pending, or the label of the assertion with the places of the steps it uses.

The flags may stand anywhere.  Each of them is taken once, and of what is left the first two
arguments name the files; more arguments are of no effect.

What the program does is a function of its arguments and of the texts of the files
(`CommandLine.run`).  For files that are at hand as a tree it is a function of the tree and
of the place where the program runs (`CommandLine.runIn`).
-/

namespace Rearrange

/-! ## Steps as lines -/

namespace Worksheet

/-- The place of a step as shown, counted from one. -/
def lineNumber? (w : Worksheet) (id : Nat) : Option Nat := (w.position? id).map (· + 1)

/-- The reason of a step as text. -/
def reasonText? (l : Library) (w : Worksheet) (s : Step) : Option String :=
  match s.reason with
  | .hypothesis => some "hyp"
  | .pending => some "?"
  | .assertion number => do
    let a ← l.get? number
    let places ← s.hyps.mapM w.lineNumber?
    if places.isEmpty then return a.label
    return a.label ++ " [" ++ ", ".intercalate (places.map Nat.repr) ++ "]"

/-- A step as a line. -/
def stepLine? (l : Library) (w : Worksheet) (id : Nat) : Option String := do
  let s ← w.step? id
  let n ← w.lineNumber? id
  let reason ← w.reasonText? l s
  return n.repr ++ " " ++ Text.statementText l.grammar s.formula ++ " by " ++ reason

/-- All steps as lines, in display order. -/
def lines? (l : Library) (w : Worksheet) : Option (List String) :=
  w.order.mapM (w.stepLine? l)

end Worksheet

/-! ## Arguments and outcomes -/

namespace CommandLine

/-- What the arguments ask for. -/
structure Invocation where
  /-- Work under the antecedent of a goal. -/
  underAntecedent : Bool
  library : String
  worksheet : String
  deriving DecidableEq

/-- What a run of the program writes, and its exit code. -/
structure Outcome where
  exit : Nat := 0
  stdout : String := ""
  stderr : String := ""
  deriving DecidableEq

/-- What is expected of the arguments. -/
def usage : String := "usage: attomath-transforms [--no-prefix] [--debug] <library> <worksheet>"

/-- What the arguments ask for, if both files are named. -/
def parse? (args : List String) : Option Invocation :=
  match (args.erase "--no-prefix").erase "--debug" with
  | library :: worksheet :: _ =>
    some ⟨!args.contains "--no-prefix", library, worksheet⟩
  | _ => none

/-! ## Reports -/

/-- A text with every line indented. -/
def indented (first rest text : String) : String :=
  first ++ ("\n" ++ rest).intercalate (text.splitOn "\n")

/-- The causes of an error: a single one is indented, several are numbered too. -/
def causeLines : List String → List String
  | [cause] => [indented "    " "    " cause]
  | causes => causes.zipIdx.map fun c => indented s!"    {c.2}: " "       " c.1

/-- The run that ends with an error. -/
def failed (context : String) (causes : List String) : Outcome :=
  { exit := 1
    stderr := s!"Error: {context}\n\nCaused by:\n" ++
      String.join ((causeLines causes).map (· ++ "\n")) }

/-- The run that ends with a fault, after some output. -/
def broken (stdout : String) : Outcome := { exit := 101, stdout }

/-- The run that ends because a file has no text. -/
def unreadable (path : String) (e : ReadError) : Outcome :=
  failed s!"cannot read {path}" [e.message]

/-- The run that ends because a file is not loaded. -/
def notLoaded (path : String) (e : LoadError) : Outcome :=
  match e with
  | .fault => broken ""
  | e => failed s!"in {path}" (e.message :: (e.cause?.map (·.message)).toList)

/-! ## Goals -/

/-- What is printed for a goal, given the worksheet after the attempt. -/
def report? (l : Library) (w : Worksheet) (goal : Nat) : Option (List Nat) → Option String
  | some steps => do
    let lines ← steps.mapM (w.stepLine? l)
    return String.join (lines.map (· ++ "\n"))
  | none => do
    let n ← w.lineNumber? goal
    return s!"{n} no transformation found\n"

/-- Try the goals one after the other. -/
def proveGoals (book : LawBook) (underAntecedent : Bool) :
    List Nat → Worksheet → String → Outcome
  | [], _, out => { stdout := out }
  | goal :: goals, w, out =>
    match book.prove? underAntecedent w goal with
    | none => broken out
    | some (w, steps) =>
      match report? book.library w goal steps with
      | none => broken out
      | some text => proveGoals book underAntecedent goals w (out ++ text)

/-! ## Runs -/

/-- The run of an invocation on the texts of its files. -/
def runOn (i : Invocation) (library worksheet : Except ReadError String) : Outcome :=
  match library with
  | .error e => unreadable i.library e
  | .ok text =>
    match Library.load text with
    | .error e => notLoaded i.library e
    | .ok l =>
      match worksheet with
      | .error e => unreadable i.worksheet e
      | .ok text =>
        match Worksheet.load l text with
        | .error e => notLoaded i.worksheet e
        | .ok w => proveGoals (.ofLibrary l) i.underAntecedent w.pending w ""

/-- The run of the program with the given arguments and files. -/
def run (args : List String) (read : String → Except ReadError String) : Outcome :=
  match parse? args with
  | none => failed usage ["free-standing argument is missing"]
  | some i => runOn i (read i.library) (read i.worksheet)

/-- The run of the program at a place of a file tree. -/
def runIn (files : FileTree) (place : List String) (args : List String) : Outcome :=
  run args (files.read place)

end CommandLine

end Rearrange
