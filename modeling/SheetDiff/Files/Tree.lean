import SheetDiff.Text.Lines

/-!
# Files

A `FileTree` holds the files and directories of a system, each under the list of names that leads to
it from the root, with the links between them and the working directory. Paths are written with
slashes and start at the root or in the working directory; `.` stays in a directory, `..` goes to the
one above it, and every name but the last has to lead to a directory.

What the entries allow the system may still refuse, and a text that is written may break off. How it
answers is a part of the tree as well, and nothing is known about it.
-/

namespace SheetDiff

/-! ## Errors -/

/-- Why a file or directory cannot be used. -/
inductive IoError where
  | notFound
  | fileExists
  | notADirectory
  | isADirectory
  | tooManyLinks
  | invalidText
  | nulInPath
  /-- Any other reason, in the words of the system. -/
  | other (text : String)
  deriving DecidableEq, Repr, Inhabited

/-- The wording of the system. -/
def IoError.text : IoError → String
  | notFound => "No such file or directory (os error 2)"
  | fileExists => "File exists (os error 17)"
  | notADirectory => "Not a directory (os error 20)"
  | isADirectory => "Is a directory (os error 21)"
  | tooManyLinks => "Too many levels of symbolic links (os error 40)"
  | invalidText => "stream did not contain valid UTF-8"
  | nulInPath => "file name contained an unexpected NUL byte"
  | other text => text

/-! ## Paths -/

/-- The parts of a path between its slashes. -/
def FileTree.segments (path : String) : List String :=
  (Text.partsAt '/' path.toList).map String.ofList

/-- A place: the names that lead to it from the root. -/
abbrev Place := List String

/-- A path, by the names between its slashes. -/
structure Path where
  /-- Whether it starts at the root. -/
  absolute : Bool
  names : List String
  deriving DecidableEq, Repr, Inhabited

namespace Path

def ofString (path : String) : Path := ⟨path.toList.head? = some '/', FileTree.segments path⟩

/-- Whether nothing is written. -/
def isEmpty (p : Path) : Bool := !p.absolute && p.names.all (·.isEmpty)

/-- Where a path starts that is used in a directory. -/
def start (p : Path) (directory : Place) : Place := if p.absolute then [] else directory

/-- The names of a path without what does not change it: empty names and inner dots. -/
def parts (p : Path) : List String :=
  match p.names with
  | [] => []
  | first :: others =>
    let kept := others.filter fun name => name ≠ "" ∧ name ≠ "."
    if first = "" then kept else first :: kept

end Path

/-! ## Entries -/

inductive Entry where
  | file (contents : ByteArray)
  | directory
  deriving Inhabited

def Entry.isDirectory : Entry → Bool
  | .file _ => false
  | .directory => true

/-- What a name stands for that has no entry of its own. -/
inductive Link where
  /-- One more name of the entry at a place. -/
  | hard (place : Place)
  /-- Whatever a path leads to. -/
  | symbolic (path : String)
  deriving DecidableEq, Repr, Inhabited

/-- What is asked of the system with a path. -/
inductive Access where
  | read
  | inspect
  | makeDirectory
  | openFile
  deriving DecidableEq, Repr

/-- How the system answers at one time, whatever its files are. -/
structure System where
  /-- Why it refuses something with a path: rights, limits, a device that fails. -/
  refusal? : Access → Path → Option IoError
  /-- How many bytes it takes of what is written, and why it takes no more, if there is a limit. -/
  interruption? : Option (Nat × IoError)

/-- A system that does what it is asked for. -/
def System.obliging : System := ⟨fun _ _ => none, none⟩

instance : Inhabited System := ⟨.obliging⟩

/-- The files of a system, its links and its working directory. -/
structure FileTree where
  /-- Files and directories by their places. The root itself is always there. -/
  entries : List (Place × Entry)
  links : List (Place × Link)
  workingDirectory : Place
  /-- How the system answers now, and after each time it will have been asked. -/
  system : Nat → System
  deriving Inhabited

namespace FileTree

/-- Nothing but the root, where a system works that does what it is asked for. -/
def empty : FileTree := ⟨[], [], [], fun _ => .obliging⟩

/-- The entry at a place. -/
def entry? (t : FileTree) (place : Place) : Option Entry :=
  if place = [] then some .directory else t.entries.lookup place

/-- The link at a place. -/
def link? (t : FileTree) (place : Place) : Option Link := t.links.lookup place

/-- Puts an entry at a place instead of what is there. -/
def put (t : FileTree) (place : Place) (e : Entry) : FileTree :=
  { t with entries := t.entries.filter (·.1 ≠ place) ++ [(place, e)] }

/-- The tree once the system has been asked for something. -/
def later (t : FileTree) : FileTree := { t with system := fun n => t.system (n + 1) }

/-! ## Where paths lead -/

/-- What a name leads to: a place, or the path of a symbolic link. -/
inductive Lead where
  | to (place : Place)
  | along (path : Path)
  deriving DecidableEq, Repr

/-- What a name leads to from a place, which has to be a directory. -/
def enter (t : FileTree) (place : Place) (name : String) : Except IoError Lead :=
  match t.entry? place with
  | none => .error .notFound
  | some (.file _) => .error .notADirectory
  | some .directory =>
    if name = "" ∨ name = "." then .ok (.to place)
    else if name = ".." then .ok (.to place.dropLast)
    else match t.link? (place ++ [name]) with
      | none => .ok (.to (place ++ [name]))
      | some (.hard other) => .ok (.to other)
      | some (.symbolic target) =>
        if (Path.ofString target).isEmpty then .error .notFound
        else .ok (.along (Path.ofString target))

/-- Goes along names from a place; `follow` goes on along a symbolic link and the names behind it. -/
def walk (t : FileTree) (follow : Place → List String → Except IoError Place) :
    Place → List String → Except IoError Place
  | place, [] => .ok place
  | place, name :: names =>
    match t.enter place name with
    | .error e => .error e
    | .ok (.to next) => t.walk follow next names
    | .ok (.along path) => follow (path.start place) (path.names ++ names)

/-- Goes along names through so many symbolic links at most. -/
def follow (t : FileTree) : Nat → Place → List String → Except IoError Place
  | 0 => t.walk fun _ _ => .error .tooManyLinks
  | links + 1 => t.walk (t.follow links)

/-- How many symbolic links a path may lead through. -/
def maxLinks : Nat := 40

/-- The place that a path leads to. The last name need not be that of an entry. -/
def locate (t : FileTree) (path : Path) : Except IoError Place :=
  if path.isEmpty then .error .notFound
  else t.follow maxLinks (path.start t.workingDirectory) path.names

/-- The directory in which a path names something new, and the name. -/
def destination (t : FileTree) (path : Path) : Except IoError (Place × String) :=
  match path.names.reverse.dropWhile (· = "") with
  | [] => .error (if path.absolute then .fileExists else .notFound)
  | name :: above => do
    -- the dot asks for a directory
    let parent ← t.locate ⟨path.absolute, above.reverse ++ ["."]⟩
    if name = "." ∨ name = ".." then .error .fileExists else .ok (parent, name)

/-- Whether a path leads to a directory. -/
def isDirectory (t : FileTree) (path : Path) : Bool :=
  match t.locate path with
  | .ok place => (t.entry? place).any Entry.isDirectory
  | .error _ => false

def hasNul (path : String) : Bool := path.toList.contains '\x00'

/-! ## Reading -/

/-- The contents of a file. -/
def readBytes (t : FileTree) (path : String) : Except IoError ByteArray :=
  if hasNul path then .error .nulInPath
  else match (t.system 0).refusal? .read (.ofString path) with
    | some e => .error e
    | none => do
      match t.entry? (← t.locate (.ofString path)) with
      | some (.file contents) => .ok contents
      | some .directory => .error .isADirectory
      | none => .error .notFound

/-- The text of a file. -/
def readText (t : FileTree) (path : String) : Except IoError String := do
  match String.fromUTF8? (← t.readBytes path) with
  | some text => .ok text
  | none => .error .invalidText

end FileTree

end SheetDiff
