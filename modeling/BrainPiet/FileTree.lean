import BrainPiet.Store
import Std.Data.HashMap

/-!
# File trees

A file tree is a file system of directories and of files that hold bytes. A path names an entry by the
steps that lead to it, from the top or from the directory in which a program works.
-/

namespace BrainPiet

/-- An entry of a tree. -/
inductive Entry
  | directory
  | file (data : List UInt8)
  deriving DecidableEq, Repr, Inhabited

/-- The names that lead to an entry from the top. -/
abbrev Location := List Phrase

/-- One step further: nowhere, up, or into an entry. -/
def Location.enter (here : Location) (step : Phrase) : Location :=
  if step = [.char '.'] then here
  else if step = [.char '.', .char '.'] then here.dropLast
  else here ++ [step]

/-- A path divided into whether it starts at the top, its steps, and whether a slash ends it. -/
structure Route where
  fromTop : Bool
  steps : List Phrase
  slash : Bool
  deriving DecidableEq, Repr

namespace Route

/-- The slash, which stands between names. -/
def divider : Letter := .char '/'

/-- Reads a path; slashes side by side count as one. -/
def ofPath (path : Phrase) : Route :=
  ⟨path.head? = some divider, (path.splitOn divider).filter (· ≠ []), path.getLast? = some divider⟩

/-- The step names an entry; it does not stay or go up. -/
def isName (step : Phrase) : Bool := step ≠ [.char '.'] ∧ step ≠ [.char '.', .char '.']

/-- The number of bytes of letters. -/
def size (text : Phrase) : Nat :=
  text.foldl (fun sum letter ↦ sum + (letter.char?.map Char.utf8Size).getD 1) 0

/-- The most bytes of a name. -/
def nameLimit : Nat := 255

/-- The most bytes of a path. -/
def pathLimit : Nat := 4095

/-- Reads a path that a system can look up. -/
def check (path : Phrase) : Except FileFault Route :=
  if path.contains (.char '\x00') then .error .nullByte
  else if path.isEmpty then .error (.notFound path)
  else if pathLimit < size path then .error (.tooLong path)
  else .ok (ofPath path)

end Route

/-- The entries of a tree by location, and where a program works in it. -/
structure FileTree where
  home : Location := []
  entries : Std.HashMap Location Entry := ∅
  deriving Inhabited

namespace FileTree

/-- The entry at a location. The working directory and what lies above it are directories. -/
def get? (t : FileTree) (l : Location) : Option Entry :=
  if l.isPrefixOf t.home then some .directory else t.entries[l]?

/-- The tree with an entry put at a location. -/
def put (t : FileTree) (l : Location) (e : Entry) : FileTree :=
  { t with entries := t.entries.insert l e }

/-- A location that has to be a directory. -/
def directory (t : FileTree) (path : Phrase) (here : Location) : Except FileFault Location :=
  match t.get? here with
  | some .directory => .ok here
  | some (.file _) => .error (.notDirectory path)
  | none => .error (.notFound path)

/-- One step from a directory. -/
def advance (t : FileTree) (path : Phrase) (here : Location) (step : Phrase) :
    Except FileFault Location := do
  let here ← t.directory path here
  if Route.nameLimit < Route.size step then .error (.tooLong path) else .ok (here.enter step)

/-- Where a route starts. -/
def start (t : FileTree) (route : Route) : Location := if route.fromTop then [] else t.home

/-- The location that a path leads to. -/
def locate (t : FileTree) (path : Phrase) : Except FileFault Location := do
  let route ← Route.check path
  route.steps.foldlM (t.advance path) (t.start route)

/-- What a file holds. -/
def read (t : FileTree) (path : Phrase) : Except FileFault (List UInt8) := do
  let l ← t.locate path
  match t.get? l with
  | some .directory => .error (.isDirectory path)
  | some (.file data) =>
    if (Route.ofPath path).slash then .error (.notDirectory path) else .ok data
  | none => .error (.notFound path)

/-- The location at which a file can be written. A name before a slash is taken for that of a
directory without a look at the tree. -/
def target (t : FileTree) (path : Phrase) : Except FileFault Location := do
  let route ← Route.check path
  let above ← route.steps.dropLast.foldlM (t.advance path) (t.start route)
  let above ← t.directory path above
  match route.steps.getLast? with
  | none => .error (.isDirectory path)
  | some step =>
    if Route.isName step ∧ !route.slash then
      let l ← t.advance path above step
      if t.get? l = some .directory then .error (.isDirectory path) else .ok l
    else .error (.isDirectory path)

end FileTree

/-- A file tree, the input, and what was printed. -/
structure Workspace where
  tree : FileTree := {}
  input : List UInt8 := []
  printed : String := ""
  warned : String := ""
  deriving Inhabited

namespace Workspace

/-- The input, which can be read once. -/
def readInput : StateM Workspace (List UInt8) :=
  modifyGet fun w ↦ (w.input, { w with input := [] })

/-- What a file holds. -/
def read (path : Phrase) : StateM Workspace (Except FileFault (List UInt8)) := do
  return (← get).tree.read path

/-- Puts an empty file at the location that a path leads to. -/
def create (path : Phrase) : StateM Workspace (Except FileFault Location) := do
  let w ← get
  match w.tree.target path with
  | .error fault => return .error fault
  | .ok l =>
    set { w with tree := w.tree.put l (.file []) }
    return .ok l

/-- Writes a file. -/
def write (l : Location) (data : List UInt8) : StateM Workspace (Except FileFault Unit) := do
  modify fun w ↦ { w with tree := w.tree.put l (.file data) }
  return .ok ()

/-- Prints letters, if they are characters all. -/
def print (text : Phrase) : StateM Workspace (Except PrintFault Unit) := do
  match text.encoded with
  | .error fault => return .error (.encoding fault)
  | .ok text =>
    modify fun w ↦ { w with printed := w.printed ++ text }
    return .ok ()

/-- Prints a message to the stream of errors. -/
def warn (text : String) : StateM Workspace Unit :=
  modify fun w ↦ { w with warned := w.warned ++ text }

/-- The store of a workspace. -/
def store : Store (StateM Workspace) := ⟨Location, readInput, read, create, write, print, warn⟩

end Workspace

end BrainPiet
