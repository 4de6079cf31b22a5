import Rearrange.Text.Unprintable

/-!
# Readers

A reader takes a text and either reads a value from its beginning, leaving the rest, or
replies that it cannot.  A reader that *misses* may be replaced by an alternative; one
that *fails* has recognised what it reads and ends the whole reading.  A third way to end
is a *fault*, see `Reply.fault`.

A miss and a failure come with a trace: what went wrong, then what was being read, from
the innermost reader outwards, each with the text that was left at that point.  Of two
alternatives that both miss, the one that got further is reported, and the later one
if they got equally far (`furthest`).

Messages show the beginning of what is left to read, in double quotes.  Quotes and
backslashes are escaped, as are the null character, the tabulator and the line ends.
Every other character without a glyph of its own is shown as its number in hexadecimal.
-/

namespace Rearrange.Text

/-! ## Quoted excerpts -/

/-- The number of characters an excerpt shows. -/
def excerptLength : Nat := 20

/-- How a character is shown between double quotes. -/
def quoteChar (c : Char) : String :=
  if c = '"' then "\\\""
  else if c = '\\' then "\\\\"
  else if c = '\t' then "\\t"
  else if c = '\n' then "\\n"
  else if c = '\r' then "\\r"
  else if c.toNat = 0 then "\\0"
  else if isUnprintable c then
    "\\u\x7b" ++ String.ofList (Nat.toDigits 16 c.toNat) ++ "\x7d"
  else c.toString

/-- A text between double quotes. -/
def quote (cs : List Char) : String :=
  "\"" ++ String.join (cs.map quoteChar) ++ "\""

/-- The beginning of a text between double quotes. -/
def excerpt (cs : List Char) : String := quote (cs.take excerptLength)

/-! ## Traces -/

/-- What a reader looked for. -/
inductive Wanted where
  /-- A given text. -/
  | literal
  /-- A run of characters outside a given set. -/
  | word
  /-- A run of digits. -/
  | digits
  /-- A text that a delimiter ends. -/
  | delimited
  /-- A text that stands for a value. -/
  | value
  /-- One of several alternatives. -/
  | alternative
  /-- A given number of items. -/
  | items
  /-- The end of the text. -/
  | ending
  deriving DecidableEq, Repr

namespace Wanted

/-- The name under which a message mentions what was looked for. -/
def name : Wanted → String
  | literal => "Tag"
  | word => "IsNot"
  | digits => "Digit"
  | delimited => "TakeUntil"
  | value => "MapOpt"
  | alternative => "Alt"
  | items => "Count"
  | ending => "Eof"

end Wanted

/-- One line of a trace without its place. -/
inductive Note where
  /-- Something was looked for and not found. -/
  | missing (what : Wanted)
  /-- A given character was looked for and not found. -/
  | expected (c : Char)
  /-- It happened while reading this. -/
  | inside (what : String)
  deriving DecidableEq, Repr

/-- A note with the text that was left. -/
structure Mark where
  rest : List Char
  note : Note
  deriving DecidableEq, Repr

/-- Marks from the innermost reader outwards. -/
abbrev Trace := List Mark

namespace Mark

/-- A line of a message. -/
def describe (m : Mark) : String :=
  match m.note with
  | .missing what => s!"{what.name} at {excerpt m.rest}\n"
  | .expected c => s!"expected '{c}' at {excerpt m.rest}\n"
  | .inside what => s!"in {what} at {excerpt m.rest}\n"

end Mark

namespace Trace

/-- The message of a trace, one line for each mark. -/
def describe (t : Trace) : String := String.join (t.map Mark.describe)

/-- How much was left when the innermost reader stopped. -/
def left : Trace → Nat
  | [] => 0
  | m :: _ => m.rest.length

/-- Of two traces of alternatives the one that got further, or else the later one. -/
def furthest (a b : Trace) : Trace := if a.left < b.left then a else b

end Trace

/-- What a reader replies. -/
inductive Reply (α : Type) where
  /-- A value was read, and `rest` is left. -/
  | done (value : α) (rest : List Char)
  /-- Nothing was read; an alternative may be tried. -/
  | miss (trace : Trace)
  /-- Nothing was read, and no alternative can help. -/
  | fail (trace : Trace)
  /-- A name was read that stands for a variable past the range of variable codes. -/
  | fault

/-- A reader of values. -/
def Reader (α : Type) : Type := List Char → Reply α

namespace Reader

variable {α β : Type}

/-- Read nothing. -/
def done (a : α) : Reader α := fun cs => .done a cs

/-- Read one thing after another. -/
def andThen (p : Reader α) (q : α → Reader β) : Reader β := fun cs =>
  match p cs with
  | .done a rest => q a rest
  | .miss t => .miss t
  | .fail t => .fail t
  | .fault => .fault

instance : Monad Reader where
  pure := done
  bind := andThen

/-- Miss at the current place. -/
def missing (what : Wanted) : Reader α := fun cs => .miss [⟨cs, .missing what⟩]

/-! ## Characters and words -/

/-- What is left of `cs` behind the text `start`, if it starts with it. -/
def behind? : (start cs : List Char) → Option (List Char)
  | [], cs => some cs
  | _ :: _, [] => none
  | s :: start, c :: cs => if s = c then behind? start cs else none

/-- Read a given text. -/
def literal (text : String) : Reader Unit := fun cs =>
  match behind? text.toList cs with
  | some rest => .done () rest
  | none => .miss [⟨cs, .missing .literal⟩]

/-- Read a given character. -/
def character (c : Char) : Reader Unit
  | d :: rest => if d = c then .done () rest else .miss [⟨d :: rest, .expected c⟩]
  | [] => .miss [⟨[], .expected c⟩]

/-- Read the longest run of characters that satisfy a condition, at least one. -/
def run (what : Wanted) (wanted : Char → Bool) : Reader (List Char) := fun cs =>
  match cs.takeWhile wanted with
  | [] => .miss [⟨cs, .missing what⟩]
  | word => .done word (cs.dropWhile wanted)

/-- Read the longest run of characters outside a set, at least one. -/
def word (stops : List Char) : Reader (List Char) := run .word fun c => !stops.contains c

/-- Read the longest run of ASCII digits, at least one. -/
def digits : Reader (List Char) := run .digits Char.isDigit

/-- What stands in front of the first occurrence of `stop`. -/
def before? (stop : List Char) : List Char → Option (List Char)
  | [] => if stop.isEmpty then some [] else none
  | c :: cs =>
    if stop.isPrefixOf (c :: cs) then some []
    else (before? stop cs).map (c :: ·)

/-- Read what stands in front of the first occurrence of `stop`. -/
def upTo (stop : String) : Reader (List Char) := fun cs =>
  match before? stop.toList cs with
  | some text => .done text (cs.drop text.length)
  | none => .miss [⟨cs, .missing .delimited⟩]

/-- Read all that is left. -/
def remainder : Reader (List Char) := fun cs => .done cs []

/-- Read the end of the text. -/
def ending : Reader Unit
  | [] => .done () []
  | c :: cs => .miss [⟨c :: cs, .missing .ending⟩]

/-! ## Combinations -/

/-- Read a text that stands for a value. -/
def value (p : Reader α) (f : α → Option β) : Reader β := fun cs =>
  match p cs with
  | .done a rest =>
    match f a with
    | some b => .done b rest
    | none => .miss [⟨cs, .missing .value⟩]
  | .miss t => .miss t
  | .fail t => .fail t
  | .fault => .fault

/-- Try the alternatives in turn after one that missed with trace `t`. -/
def tryNext (cs : List Char) (t : Trace) : List (Reader α) → Reply α
  | [] => .miss (t ++ [⟨cs, .missing .alternative⟩])
  | p :: ps =>
    match p cs with
    | .miss u => tryNext cs (t.furthest u) ps
    | reply => reply

/-- Read one of several alternatives, the first that does not miss. -/
def firstOf : List (Reader α) → Reader α
  | [] => missing .alternative
  | p :: ps => fun cs =>
    match p cs with
    | .miss t => tryNext cs t ps
    | reply => reply

/-- Read `p`, mentioned in messages as `what`. -/
def inside (what : String) (p : Reader α) : Reader α := fun cs =>
  match p cs with
  | .miss t => .miss (t ++ [⟨cs, .inside what⟩])
  | .fail t => .fail (t ++ [⟨cs, .inside what⟩])
  | reply => reply

/-- Read `p` as often as given, one after the other. -/
def inTurn (p : Reader α) : Nat → Reader (List α)
  | 0 => done []
  | n + 1 => do
    let a ← p
    let as ← inTurn p n
    return a :: as

/-- Read a given number of items. -/
def items (n : Nat) (p : Reader α) : Reader (List α) := fun cs =>
  match inTurn p n cs with
  | .miss t => .miss (t ++ [⟨cs, .missing .items⟩])
  | reply => reply

/-- Read further items, each behind a separator, as long as there are any; `fuel` bounds
their number. -/
def moreItems (separator : Reader Unit) (p : Reader α) : Nat → Reader (List α)
  | 0 => done []
  | fuel + 1 => fun cs =>
    match (separator.andThen fun _ => p) cs with
    | .done a rest => (moreItems separator p fuel).andThen (fun as => done (a :: as)) rest
    | .miss _ => .done [] cs
    | .fail t => .fail t
    | .fault => .fault

/-- Read items with separators between them, at least one.  The separators read
something, so there are no more items than characters. -/
def separated (separator : Reader Unit) (p : Reader α) : Reader (List α) := do
  let a ← p
  let as ← fun cs => moreItems separator p cs.length cs
  return a :: as

/-- Read `p` inside exactly the text that `outer` reads. -/
def within (outer : Reader (List Char)) (p : Reader α) : Reader α := fun cs =>
  match outer cs with
  | .done text rest =>
    match p text with
    | .done a _ => .done a rest
    | reply => reply
  | .miss t => .miss t
  | .fail t => .fail t
  | .fault => .fault

/-- Read `p` and nothing else: a miss becomes a failure. -/
def committed (p : Reader α) : Reader α := fun cs =>
  match p cs with
  | .miss t => .fail t
  | reply => reply

/-- Read `p` up to the end of the text. -/
def complete (p : Reader α) : Reader α := do
  let a ← p
  ending
  return a

end Reader

end Rearrange.Text
