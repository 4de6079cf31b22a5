import Rearrange.Grammar
import Rearrange.Text.Reader

/-!
# Expressions as text

An operator without arguments is written bare, one with two arguments stands between
them, `(a op b)`, and any other stands in front of them, `(op a b c)`.  A provable
statement is written `|- e`, and an assertion lists its hypotheses in front of its
conclusion, `|- h, |- k => |- c`.

Writing accepts every term: a hole is written `_`, and symbols that are not declared
are written with a question mark.  Reading accepts names that are declared in the
grammar, each operator in the one way that writing uses for its arity.

Reading recurses below an opening parenthesis, so the length of the text bounds the
depth of the recursion (`readExpression`).
-/

namespace Rearrange.Text

open Reader

/-! ## Writing -/

/-- The name of a variable, or its number behind a question mark. -/
def variableName (g : Grammar) (s : Symbol) : String :=
  match g.findVariable? s with
  | some v => v.name
  | none => s!"?{s.code}"

/-- The name of an operator, or a question mark. -/
def operatorName (g : Grammar) (s : Symbol) : String :=
  match g.findOperator? s with
  | some o => o.symbol
  | none => "?"

mutual

/-- An expression as text. -/
def writeExpression (g : Grammar) : Term → List Char
  | .node .hole _ => ['_']
  | .node (.var n) _ => (variableName g (.var n)).toList
  | .node (.op n) [] => (operatorName g (.op n)).toList
  | .node (.op n) [a, b] =>
    ['('] ++ writeExpression g a ++ [' '] ++ (operatorName g (.op n)).toList ++ [' '] ++
      writeExpression g b ++ [')']
  | .node (.op n) as => ['('] ++ (operatorName g (.op n)).toList ++ writeArguments g as ++ [')']

/-- Arguments as text, each behind a blank. -/
def writeArguments (g : Grammar) : List Term → List Char
  | [] => []
  | a :: as => [' '] ++ writeExpression g a ++ writeArguments g as

end

/-- A provable statement as text. -/
def writeStatement (g : Grammar) (t : Term) : List Char := "|- ".toList ++ writeExpression g t

/-- Hypotheses and a conclusion as text. -/
def writeAssertion (g : Grammar) (hypotheses : List Term) (conclusion : Term) : List Char :=
  match hypotheses with
  | [] => writeStatement g conclusion
  | _ => (", ".toList).intercalate (hypotheses.map (writeStatement g)) ++ " => ".toList ++
      writeStatement g conclusion

/-- An expression as a string. -/
def expressionText (g : Grammar) (t : Term) : String := String.ofList (writeExpression g t)

/-- A provable statement as a string. -/
def statementText (g : Grammar) (t : Term) : String := String.ofList (writeStatement g t)

/-- Hypotheses and a conclusion as a string. -/
def assertionText (g : Grammar) (hypotheses : List Term) (conclusion : Term) : String :=
  String.ofList (writeAssertion g hypotheses conclusion)

/-! ## Reading -/

/-- The characters that end a name inside an expression. -/
def nameEnds : List Char := [' ', '(', ')', ',']

/-- What a name stands for at a leaf: a variable or an operator without arguments.  A
variable past the range of variable codes has no term. -/
def leafNamed? (g : Grammar) (name : List Char) : Option (Option Term) :=
  match g.lookup? (String.ofList name) with
  | some (.var s) => some (Term.ofVariable? s)
  | some (.operator s) =>
    match g.findOperator? s with
    | some o => if o.arity = 0 then some (some (.node s [])) else none
    | none => none
  | _ => none

/-- Read a leaf. -/
def readLeaf (g : Grammar) : Reader Term := do
  match ← value (word nameEnds) (leafNamed? g) with
  | some t => return t
  | none => fun _ => .fault

/-- Where an operator stands. -/
inductive Fixity where
  /-- In front of its arguments. -/
  | leading
  /-- Between its two arguments. -/
  | between
  deriving DecidableEq, Repr

/-- Where an operator with arguments stands. -/
def Fixity.ofArity (n : Nat) : Fixity := if n = 2 then .between else .leading

/-- The operator with arguments that has a given name and stands at a given place. -/
def operatorNamed? (g : Grammar) (f : Fixity) (name : List Char) : Option (Symbol × Nat) :=
  match g.lookup? (String.ofList name) with
  | some (.operator s) =>
    match g.findOperator? s with
    | some o => if o.arity ≠ 0 ∧ Fixity.ofArity o.arity = f then some (s, o.arity) else none
    | none => none
  | _ => none

/-- Read the name of an operator that stands at a given place. -/
def readOperator (g : Grammar) (f : Fixity) : Reader (Symbol × Nat) :=
  value (word nameEnds) (operatorNamed? g f)

/-- Read an application with the operator in front. -/
def readLeading (g : Grammar) (argument : Reader Term) : Reader Term := do
  character '('
  let (s, arity) ← readOperator g .leading
  let as ← items arity do
    character ' '
    argument
  character ')'
  return .node s as

/-- Read an application with the operator between its arguments. -/
def readBetween (g : Grammar) (argument : Reader Term) : Reader Term := do
  character '('
  let a ← argument
  character ' '
  let (s, _) ← readOperator g .between
  character ' '
  let b ← argument
  character ')'
  return .binary s a b

/-- Read an expression with at most `fuel` levels. -/
def readExpressionUpTo (g : Grammar) : (fuel : Nat) → Reader Term
  | 0 => fun _ => .fault
  | fuel + 1 =>
    firstOf [readLeaf g, readLeading g (readExpressionUpTo g fuel),
      readBetween g (readExpressionUpTo g fuel)]

/-- Read an expression.  Every level below the first takes a parenthesis, so there are no
more levels than characters and one. -/
def readExpression (g : Grammar) : Reader Term := fun cs =>
  readExpressionUpTo g (cs.length + 1) cs

/-- Read a provable statement. -/
def readStatement (g : Grammar) : Reader Term := do
  literal "|- "
  readExpression g

/-- Read hypotheses and a conclusion up to the end of the text. -/
def readAssertion (g : Grammar) : Reader (List Term × Term) :=
  firstOf [
    do
      let hypotheses ← inside "hypotheses" (separated (literal ", ") (readStatement g))
      literal " => "
      let conclusion ← inside "conclusion" (readStatement g)
      ending
      return (hypotheses, conclusion),
    do
      let conclusion ← inside "conclusion" (readStatement g)
      ending
      return ([], conclusion)]

end Rearrange.Text
