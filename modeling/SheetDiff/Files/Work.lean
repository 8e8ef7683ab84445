import SheetDiff.Files.Tree

/-!
# Work on files

`FileWork` changes a file tree step by step and keeps what it has done when it fails. For each step
the system is asked first. A directory is made together with the directories above it; a file is
opened, which makes or empties it, and then takes the text that is written, or the first part of it.
-/

namespace SheetDiff

/-- Work on a file tree, which may fail. -/
abbrev FileWork := ExceptT IoError (StateM FileTree)

namespace FileWork

/-- Asks the system for something with a path. -/
def ask (access : Access) (path : Path) : FileWork Unit := do
  let t ← get
  set t.later
  match (t.system 0).refusal? access path with
  | some e => throw e
  | none => pure ()

/-! ## Directories -/

/-- Makes one directory in a directory that is there. -/
def makeDirectory (path : Path) : FileWork Unit := do
  ask .makeDirectory path
  let t ← get
  let (parent, name) ← MonadExcept.ofExcept (t.destination path)
  let place := parent ++ [name]
  if (t.entry? place).isSome ∨ (t.link? place).isSome then throw .fileExists
  else set (t.put place .directory)

/-- Whether a path leads to a directory, as far as the system tells. -/
def isDirectory (path : Path) : FileWork Bool := do
  let t ← get
  set t.later
  return ((t.system 0).refusal? .inspect path).isNone && t.isDirectory path

/-- Makes a directory unless it is there; the work `above` makes what is missing above it. -/
def ensureDirectory (path : Path) (above : FileWork Unit) : FileWork Unit := do
  let accept (e : IoError) : FileWork Unit := do
    if ← isDirectory path then pure () else throw e
  try makeDirectory path
  catch
    | .notFound => do
      above
      try makeDirectory path catch e => accept e
    | e => accept e

/-- Makes the directory with these names, the last one first, and those above it. -/
def ensureAll (absolute : Bool) : List String → FileWork Unit
  | [] =>
    if absolute then ensureDirectory ⟨true, []⟩ (throw (.other "failed to create whole tree"))
    else pure ()
  | name :: names => ensureDirectory ⟨absolute, (name :: names).reverse⟩ (ensureAll absolute names)

/-- Makes a directory and the directories above it. -/
def ensurePath (path : String) : FileWork Unit :=
  if FileTree.hasNul path then throw .nulInPath
  else
    let path := Path.ofString path
    match path.parts.reverse with
    | [] => ensureAll path.absolute []
    | _ :: names => ensureDirectory path (ensureAll path.absolute names)

/-! ## Files -/

/-- Opens a file for writing, which makes or empties it, and gives its place. -/
def openFile (path : String) : FileWork Place := do
  if FileTree.hasNul path then throw .nulInPath
  ask .openFile (.ofString path)
  let t ← get
  let place ← MonadExcept.ofExcept (t.locate (.ofString path))
  if (t.entry? place).any Entry.isDirectory then throw .isADirectory
  set (t.put place (.file .empty))
  return place

/-- Writes into an open file as much as the system takes. -/
def writeBytes (place : Place) (bytes : ByteArray) : FileWork Unit := do
  let t ← get
  match (t.system 0).interruption?.filter (·.1 < bytes.size) with
  | none => set (t.later.put place (.file bytes))
  | some (taken, e) =>
    set (t.later.put place (.file (bytes.extract 0 taken)))
    throw e

/-- Writes a file, over what it held before. -/
def writeText (path text : String) : FileWork Unit := do
  writeBytes (← openFile path) text.toUTF8

end FileWork

end SheetDiff
