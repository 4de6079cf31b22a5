import Rearrange.Text.Command

/-!
# Loading files

Files are read line by line.  Blanks at the end of a line are dropped, and lines that
are then empty are skipped, but they count when the others are numbered from one.

A blank is a character with the property White_Space.  It includes the carriage
return, so lines may end in either style.

A file is loaded command by command.  Loading stops at the first line that cannot be
read, that does not belong into the file, or that is refused, and reports its number.
-/

namespace Rearrange

namespace Text

/-- First and last code point of each run of blanks. -/
def blankRanges : List (Nat × Nat) :=
  [(0x9, 0xD), (0x20, 0x20), (0x85, 0x85), (0xA0, 0xA0), (0x1680, 0x1680), (0x2000, 0x200A),
    (0x2028, 0x2029), (0x202F, 0x202F), (0x205F, 0x205F), (0x3000, 0x3000)]

/-- Whether a character is a blank. -/
def isBlank (c : Char) : Bool :=
  blankRanges.any fun r => r.1 ≤ c.toNat && c.toNat ≤ r.2

/-- The text without the blanks at its end. -/
def dropBlanksRight (cs : List Char) : List Char :=
  (cs.reverse.dropWhile isBlank).reverse

/-- Split a text at its line feeds. -/
def splitLines : List Char → List (List Char)
  | [] => [[]]
  | c :: cs =>
    if c = '\n' then [] :: splitLines cs
    else
      match splitLines cs with
      | [] => [[c]]
      | line :: rest => (c :: line) :: rest

/-- The lines that hold more than blanks, without the blanks at their end, with their
numbers counted from one. -/
def numberedLines (text : List Char) : List (Nat × List Char) :=
  ((splitLines text).mapIdx fun i line => (i + 1, dropBlanksRight line)).filter
    fun line => !line.2.isEmpty

end Text

/-- Why a file is not loaded. -/
inductive LoadError where
  /-- The line is no command. -/
  | unreadable (line : Nat) (text : String) (trace : Text.Trace)
  /-- The command is refused. -/
  | refused (line : Nat) (reason : LibraryError)
  /-- The command belongs into the other kind of file. -/
  | misplaced (line : Nat) (text : String)
  /-- The line names a variable past the range of variable codes. -/
  | fault
  deriving DecidableEq

namespace LoadError

/-- The wording of an error. -/
def message : LoadError → String
  | unreadable line text trace => s!"line {line}: cannot parse `{text}`\n" ++ trace.describe
  | refused line reason => s!"line {line}: {reason.message}"
  | misplaced line text => s!"line {line}: `{text}` is not allowed in this file"
  | fault => "variable codes are exhausted"

/-- The refusal behind an error, which is reported as its cause. -/
def cause? : LoadError → Option LibraryError
  | refused _ reason => some reason
  | _ => none

end LoadError

namespace Loading

/-- Read a line as a command. -/
def readLine (g : Grammar) (line : Nat) (text : List Char) : Except LoadError Command :=
  match Command.read g text with
  | .done c _ => .ok c
  | .miss t => .error (.unreadable line (String.ofList text) t)
  | .fail t => .error (.unreadable line (String.ofList text) t)
  | .fault => .error .fault

/-- The outcome of a command as one of its line. -/
def atLine {α : Type} (line : Nat) : Except LibraryError α → Except LoadError α
  | .ok a => .ok a
  | .error reason => .error (.refused line reason)

/-- Carry out a line of a library. -/
def libraryLine (l : Library) (line : Nat × List Char) : Except LoadError Library := do
  let c ← readLine l.grammar line.1 line.2
  if c.isLibraryCommand then atLine line.1 (c.apply l)
  else throw (.misplaced line.1 (String.ofList line.2))

/-- Carry out a line of a worksheet. -/
def worksheetLine (l : Library) (w : Worksheet) (line : Nat × List Char) :
    Except LoadError Worksheet := do
  let c ← readLine l.grammar line.1 line.2
  if c.isLibraryCommand then throw (.misplaced line.1 (String.ofList line.2))
  else atLine line.1 (c.applyToWorksheet l w)

end Loading

/-- Load a library from the text of its file. -/
def Library.load (text : String) : Except LoadError Library :=
  (Text.numberedLines text.toList).foldlM Loading.libraryLine Library.empty

/-- Load a worksheet over a library from the text of its file. -/
def Worksheet.load (l : Library) (text : String) : Except LoadError Worksheet :=
  (Text.numberedLines text.toList).foldlM (Loading.worksheetLine l) Worksheet.empty

end Rearrange
