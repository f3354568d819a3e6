import ChillHints.Text.Basic

/-!
# What is written outside

Messages go to the standard error stream or to files in the working directory. An `Outbox` holds all that has been
written so far. A path that leads into another directory or to no file at all, or that is too long, cannot be
opened, and what is written there is lost without notice.
-/

namespace ChillHints

/-- The standard error stream, and the files by name. -/
structure Outbox where
  stderr : String
  files : List (String × String)
deriving DecidableEq, Repr

namespace Outbox

def empty : Outbox := ⟨"", []⟩

/-- The longest path that can be opened, in bytes. -/
def maxPathBytes : Nat := 4095

/-- The longest name of a file, in bytes. -/
def maxNameBytes : Nat := 255

/-- Can a path be opened at all? It must not be too long, and no part of it may be the character that ends paths. -/
def opens (path : String) : Bool := path.utf8ByteSize ≤ maxPathBytes && !path.toList.contains '\x00'

/-- Does the component of a path lead nowhere else? -/
def stays (s : Text) : Bool := s == [] || s == ['.']

/-- Is the component of a path the name of a file? -/
def namesFile (s : Text) : Bool := !stays s && s != ['.', '.'] && (String.ofList s).utf8ByteSize ≤ maxNameBytes

/-- The file in the working directory that a relative path names: its last component, if the others lead nowhere
else. -/
def fileName? (path : String) : Option String :=
  match (Text.pieces (· == '/') path.toList).reverse with
  | [] => none
  | last :: dirs =>
    let absolute := dirs.getLast? == some []
    if opens path && !absolute && dirs.all stays && namesFile last then some (String.ofList last) else none

/-- Sets the content of a file. -/
def put (o : Outbox) (name content : String) : Outbox :=
  { o with files := (name, content) :: o.files.filter (·.1 != name) }

/-- Writes to the standard error stream. -/
def report (o : Outbox) (s : String) : Outbox := { o with stderr := o.stderr ++ s }

/-- Writes a file, of which nothing older is left. -/
def overwrite (o : Outbox) (path content : String) : Outbox :=
  match fileName? path with
  | some name => o.put name content
  | none => o

/-- Makes an empty file. -/
def truncate (o : Outbox) (path : String) : Outbox := o.overwrite path ""

/-- Writes to the end of a file that exists. -/
def append (o : Outbox) (path s : String) : Outbox :=
  match fileName? path with
  | some name =>
    match o.files.lookup name with
    | some content => o.put name (content ++ s)
    | none => o
  | none => o

end Outbox

end ChillHints
