import Std.Data.ExtTreeMap
import Rearrange.Term

/-!
# Grammars

A grammar declares typecodes (`wff`, `class`), operators with a typecode and an
arity, and variables with a typecode.  All three share one table of names, so a
name is declared at most once.

Declarations are numbered from zero, each kind on its own.  The number of a
typecode is kept modulo 256, and the symbol of an operator or variable is the one
whose code is reduced to sixteen bits (`Symbol.wrapped`).  The first typecode is
the one of provable statements.

A term fits the grammar (`Grammar.check`) when every symbol is declared and every
operator has as many arguments as its arity.  What stands below a variable is not
looked at.
-/

namespace Rearrange

/-- The number of a typecode. -/
abbrev Typecode := Nat

/-- A declared operator, such as implication with typecode `wff` and arity 2. -/
structure Operator where
  symbol : String
  typecode : Typecode
  arity : Nat
  deriving DecidableEq, Repr

/-- A declared variable. -/
structure Variable where
  name : String
  typecode : Typecode
  deriving DecidableEq, Repr

/-- What a declared name stands for. -/
inductive Meaning where
  | typecode (t : Typecode)
  | operator (s : Symbol)
  | var (s : Symbol)
  deriving DecidableEq, Repr

/-- Why a declaration, a statement or a look-up is refused. -/
inductive LibraryError where
  /-- The name or label is declared already. -/
  | nameInUse (name : String)
  /-- No assertion has this label. -/
  | assertionNotFound (label : String)
  /-- The name is no typecode. -/
  | unknownTypecode (name : String)
  /-- The symbol is not declared. -/
  | unknownSymbol (s : Symbol)
  /-- The operator has another arity than the number of its arguments. -/
  | arityMismatch (s : Symbol) (arity found : Nat)
  /-- The term is no statement: it has another typecode than the expected one. -/
  | statementTypecode (expected found : Typecode)
  deriving DecidableEq, Repr

namespace LibraryError

/-- The wording of a refusal. -/
def message : LibraryError → String
  | nameInUse name => s!"name `{name}` is already in use"
  | assertionNotFound label => s!"assertion `{label}` not found"
  | unknownTypecode name => s!"unknown typecode `{name}`"
  | unknownSymbol s => s!"unknown symbol {s.code}"
  | arityMismatch s arity found =>
    s!"operator {s.code} expects {arity} arguments, found {found}"
  | statementTypecode expected found =>
    s!"statement of typecode {found} where {expected} was expected"

end LibraryError

/-- The declared typecodes, operators and variables with the table of their
names. -/
structure Grammar where
  typecodes : Array String := #[]
  operators : Array Operator := #[]
  vars : Array Variable := #[]
  names : Std.ExtTreeMap String Meaning := ∅
  deriving DecidableEq

namespace Grammar

/-- The grammar without declarations. -/
def empty : Grammar := {}

/-- What a name stands for. -/
def lookup? (g : Grammar) (name : String) : Option Meaning := g.names[name]?

/-! ## Declarations -/

/-- Enter a name that is not in use yet. -/
def claim (g : Grammar) (name : String) (m : Meaning) : Except LibraryError Grammar :=
  if g.names.contains name then .error (.nameInUse name)
  else .ok { g with names := g.names.insert name m }

/-- Declare a typecode. -/
def addTypecode (g : Grammar) (name : String) : Except LibraryError (Grammar × Typecode) := do
  let t := g.typecodes.size % 256
  let g ← g.claim name (.typecode t)
  return ({ g with typecodes := g.typecodes.push name }, t)

/-- Declare an operator. -/
def addOperator (g : Grammar) (t : Typecode) (symbol : String) (arity : Nat) :
    Except LibraryError (Grammar × Symbol) := do
  let s := Symbol.wrapped (-(g.operators.size : Int) - 1)
  let g ← g.claim symbol (.operator s)
  return ({ g with operators := g.operators.push ⟨symbol, t, arity⟩ }, s)

/-- Declare a variable. -/
def addVariable (g : Grammar) (t : Typecode) (name : String) :
    Except LibraryError (Grammar × Symbol) := do
  let s := Symbol.wrapped g.vars.size
  let g ← g.claim name (.var s)
  return ({ g with vars := g.vars.push ⟨name, t⟩ }, s)

/-! ## Look-up -/

/-- The number of the typecode with a given name. -/
def typecode (g : Grammar) (name : String) : Except LibraryError Typecode :=
  match g.lookup? name with
  | some (.typecode t) => .ok t
  | _ => .error (.unknownTypecode name)

/-- The name of a typecode. -/
def typecodeName? (g : Grammar) (t : Typecode) : Option String := g.typecodes[t]?

/-- The declaration of an operator. -/
def findOperator? (g : Grammar) : Symbol → Option Operator
  | .op n => g.operators[n]?
  | _ => none

/-- The declaration of a variable. -/
def findVariable? (g : Grammar) : Symbol → Option Variable
  | .var n => g.vars[n]?
  | _ => none

/-- The numbers of the typecodes, in the order of declaration. -/
def typecodeList (g : Grammar) : List Typecode :=
  (List.range g.typecodes.size).map (· % 256)

/-- The operators with their symbols, in the order of declaration. -/
def operatorList (g : Grammar) : List (Symbol × Operator) :=
  g.operators.toList.mapIdx fun n o => (Symbol.wrapped (-(n : Int) - 1), o)

/-- The variables with their symbols, in the order of declaration. -/
def variableList (g : Grammar) : List (Symbol × Variable) :=
  g.vars.toList.mapIdx fun n v => (Symbol.wrapped n, v)

/-- The typecode of a symbol, if the symbol is declared. -/
def typecodeOfSymbol? (g : Grammar) (s : Symbol) : Option Typecode :=
  match s with
  | .var _ => (g.findVariable? s).map (·.typecode)
  | _ => (g.findOperator? s).map (·.typecode)

/-- The typecode of the root of a term, if the root is declared. -/
def typecodeOf? (g : Grammar) (t : Term) : Option Typecode := g.typecodeOfSymbol? t.head

/-! ## Well-formed terms -/

mutual

/-- Check that every symbol is declared and every operator has as many arguments
as its arity. -/
def check (g : Grammar) : Term → Except LibraryError Unit
  | .node (.var n) _ =>
    match g.findVariable? (.var n) with
    | some _ => .ok ()
    | none => .error (.unknownSymbol (.var n))
  | .node f as =>
    match g.findOperator? f with
    | none => .error (.unknownSymbol f)
    | some o =>
      if o.arity = as.length then checkList g as
      else .error (.arityMismatch f o.arity as.length)

/-- Check the terms from left to right. -/
def checkList (g : Grammar) : List Term → Except LibraryError Unit
  | [] => .ok ()
  | a :: as => do
    check g a
    checkList g as

end

end Grammar

end Rearrange
