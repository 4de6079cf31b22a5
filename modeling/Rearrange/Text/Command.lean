import Rearrange.Library
import Rearrange.Text.Expression
import Rearrange.Worksheet

/-!
# Commands

Libraries and worksheets are files with one command a line.

```text
jdg wff
var wff ph ps
opr wff -> 2
axm { |- ph, |- (ph -> ps) => |- ps }: ax-mp
thm { |- (ph -> ph) }: id
hyp |- ph
goal |- (ph -> ph)
```

The first five build a library, the last two a worksheet.  A command is read against the
grammar declared by the lines before it.  Once the keyword of an assertion or a step is
recognised the rest of the line has to follow.
-/

namespace Rearrange

/-- One line of a library or a worksheet. -/
inductive Command where
  /-- Declare a typecode. -/
  | typecode (name : String)
  /-- Declare variables of a typecode. -/
  | vars (typecode : String) (names : List String)
  /-- Declare an operator. -/
  | operator (typecode symbol : String) (arity : Nat)
  /-- Add an assertion. -/
  | assertion (a : Assertion)
  /-- Assume a statement. -/
  | hypothesis (t : Term)
  /-- Ask for a proof of a statement. -/
  | goal (t : Term)
  deriving DecidableEq

namespace Command

open Text Text.Reader

/-- Whether the command builds a library. -/
def isLibraryCommand : Command → Bool
  | hypothesis _ => false
  | goal _ => false
  | _ => true

/-! ## Effects -/

/-- Declare variables one after the other. -/
def addVariables (g : Grammar) (t : Typecode) : List String → Except LibraryError Grammar
  | [] => .ok g
  | name :: names => do
    let (g, _) ← g.addVariable t name
    addVariables g t names

/-- Carry out a command on a library.  A command that builds a worksheet changes
nothing. -/
def apply (l : Library) : Command → Except LibraryError Library
  | typecode name => do
    let (g, _) ← l.grammar.addTypecode name
    return { l with grammar := g }
  | vars tc names => do
    let t ← l.grammar.typecode tc
    let g ← addVariables l.grammar t names
    return { l with grammar := g }
  | operator tc symbol arity => do
    let t ← l.grammar.typecode tc
    let (g, _) ← l.grammar.addOperator t symbol arity
    return { l with grammar := g }
  | assertion a => do
    let (l, _) ← l.addAssertion a
    return l
  | hypothesis _ => .ok l
  | goal _ => .ok l

/-- Carry out a command on a worksheet over a library.  A command that builds a library
changes nothing. -/
def applyToWorksheet (l : Library) (w : Worksheet) : Command → Except LibraryError Worksheet
  | hypothesis t => do
    l.checkStatement t
    return w.addHypothesis t
  | goal t => do
    l.checkStatement t
    return w.addGoal t
  | _ => .ok w

/-! ## Reading -/

/-- The value of a run of digits, if it is below 256. -/
def byte? (ds : List Char) : Option Nat :=
  let n := ds.foldl (fun n d => 10 * n + (d.toNat - '0'.toNat)) 0
  if n < 256 then some n else none

/-- Read an assertion behind its keyword. -/
def readAssertionAs (g : Grammar) (keyword : String) (kind : AssertionKind) : Reader Command := do
  literal keyword
  literal " \x7b "
  committed do
    let (hypotheses, conclusion) ← within (upTo " \x7d") (readAssertion g)
    literal " \x7d: "
    let label ← remainder
    return .assertion ⟨String.ofList label, kind, hypotheses, conclusion⟩

/-- Read a step of a worksheet behind its keyword. -/
def readStepAs (g : Grammar) (keyword : String) (command : Term → Command) : Reader Command := do
  literal keyword
  character ' '
  let t ← committed (readStatement g)
  return command t

/-- Read a name up to the next blank. -/
def readName : Reader String := do
  let cs ← word [' ']
  return String.ofList cs

/-- Read the declaration of a typecode. -/
def readTypecode : Reader Command := do
  literal "jdg "
  let name ← readName
  return .typecode name

/-- Read the declaration of variables. -/
def readVariables : Reader Command := do
  literal "var "
  let tc ← readName
  character ' '
  let names ← separated (character ' ') readName
  return .vars tc names

/-- Read the declaration of an operator. -/
def readOperator : Reader Command := do
  literal "opr "
  let tc ← readName
  character ' '
  let symbol ← readName
  character ' '
  let arity ← value digits byte?
  return .operator tc symbol arity

/-- Read a line. -/
def read (g : Grammar) : Reader Command :=
  committed <| complete <| firstOf [
    inside "assertion" (firstOf [
      inside "axm" (readAssertionAs g "axm" .axm),
      inside "thm" (readAssertionAs g "thm" .thm)]),
    inside "hyp" (readStepAs g "hyp" .hypothesis),
    inside "goal" (readStepAs g "goal" .goal),
    inside "jdg" readTypecode,
    inside "var" readVariables,
    inside "opr" readOperator]

/-! ## Writing -/

/-- The keyword of an assertion. -/
def keyword : AssertionKind → String
  | .axm => "axm"
  | .thm => "thm"

/-- A command as a line. -/
def write (g : Grammar) : Command → String
  | typecode name => s!"jdg {name}"
  | vars tc names => s!"var {tc} " ++ " ".intercalate names
  | operator tc symbol arity => s!"opr {tc} {symbol} {arity}"
  | assertion a =>
    keyword a.kind ++ " \x7b " ++ assertionText g a.hypotheses a.conclusion ++
      " \x7d: " ++ a.label
  | hypothesis t => "hyp " ++ statementText g t
  | goal t => "goal " ++ statementText g t

/-- The commands that build a library again, with a line for each variable.  Every
declaration has to name a typecode that exists. -/
def ofLibrary? (l : Library) : Option (List Command) := do
  let g := l.grammar
  let declared ← g.vars.toList.mapM fun v => do
    return vars (← g.typecodeName? v.typecode) [v.name]
  let ops ← g.operators.toList.mapM fun o => do
    return operator (← g.typecodeName? o.typecode) o.symbol o.arity
  return g.typecodes.toList.map typecode ++ declared ++ ops ++ l.assertions.toList.map assertion

/-- The lines that build a library again. -/
def linesOf? (l : Library) : Option (List String) :=
  (ofLibrary? l).map (·.map (write l.grammar))

end Command

end Rearrange
