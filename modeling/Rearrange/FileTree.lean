/-!
# File trees

The files that the program can read are the leaves of a tree of directories.  A path is
followed name by name from the directory where the program runs, or from the root if the
path starts with a slash.  An empty name and a single dot stay where they are, two dots go
up, and above the root there is only the root.

A path can fail in several ways, and the first failure on the way is reported: a name may be
missing, a name may follow a file, and a name may be longer than a directory can hold.  Only
directories can be followed further, so a slash at the end asks for a directory.  A path as a
whole has a limit too, which is looked at before the path is followed.  A path that is
followed to the end and leads to a directory has no text.
-/

namespace Rearrange

/-- Why a file has no text. -/
inductive ReadError where
  /-- The path is empty, or a name on it is missing. -/
  | notFound
  /-- A file stands where the path goes on. -/
  | notDirectory
  /-- The path leads to a directory. -/
  | isDirectory
  /-- The path or a name on it is too long. -/
  | nameTooLong
  | other (reason : String)
  deriving DecidableEq, Repr

/-- The wording of a reading error. -/
def ReadError.message : ReadError → String
  | notFound => "No such file or directory (os error 2)"
  | notDirectory => "Not a directory (os error 20)"
  | isDirectory => "Is a directory (os error 21)"
  | nameTooLong => "File name too long (os error 36)"
  | other reason => reason

/-- A file with its text, or a directory with its entries by name. -/
inductive FileTree where
  | file (text : String)
  | directory (entries : List (String × FileTree))
  deriving Inhabited

namespace FileTree

/-- The most bytes of a name in a directory. -/
def nameLimit : Nat := 255

/-- The most bytes of a path. -/
def pathLimit : Nat := 4095

/-- The directory without entries. -/
def empty : FileTree := .directory []

/-- The entry of a directory with a given name. -/
def entry (entries : List (String × FileTree)) (name : String) : Except ReadError FileTree :=
  if nameLimit < name.utf8ByteSize then .error .nameTooLong
  else
    match entries.lookup name with
    | some t => .ok t
    | none => .error .notFound

/-- What the names of a path lead to.  `above` holds the directories that the current one lies
in, the nearest first. -/
def follow (here : FileTree) (above : List FileTree) : List String → Except ReadError FileTree
  | [] => .ok here
  | name :: names =>
    match here with
    | .file _ => .error .notDirectory
    | .directory entries =>
      if name = "" ∨ name = "." then follow here above names
      else if name = ".." then
        match above with
        | [] => follow here [] names
        | up :: above => follow up above names
      else
        match entry entries name with
        | .ok next => follow next (here :: above) names
        | .error e => .error e

/-- The names of a path; `place` names the directory where a path starts that does not start
at the root. -/
def namesFrom (place : List String) (path : String) : List String :=
  let names := path.splitOn "/"
  if names.head? = some "" then names else place ++ names

/-- The text of the file that a path leads to from a place. -/
def read (root : FileTree) (place : List String) (path : String) : Except ReadError String :=
  if path = "" then .error .notFound
  else if pathLimit < path.utf8ByteSize then .error .nameTooLong
  else
    match follow root [] (namesFrom place path) with
    | .ok (.file text) => .ok text
    | .ok (.directory _) => .error .isDirectory
    | .error e => .error e

/-! ## Trees from files -/

/-- Put a tree at the end of a row of names, with the directories on the way. -/
def insert (t new : FileTree) : List String → FileTree
  | [] => new
  | name :: names =>
    let entries := match t with
      | .file _ => []
      | .directory entries => entries
    let inner := insert ((entries.lookup name).getD empty) new names
    .directory (entries.filter (·.1 ≠ name) ++ [(name, inner)])

/-- The tree that has a place and, at their paths from it, files with the given texts. -/
def ofFiles (place : List String) (files : List (String × String)) : FileTree :=
  files.foldl (fun t f => t.insert (.file f.2) ((namesFrom place f.1).filter (· ≠ "")))
    (empty.insert empty place)

end FileTree

end Rearrange
