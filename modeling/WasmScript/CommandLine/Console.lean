/-
  WasmScript/CommandLine/Console.lean
  ===================================
  **Consoles** — what a command needs from its surroundings, and a directory held in
  memory that provides it.

  A command prints lines, reads files and writes files; a `Console` says how.  The
  console of a `Directory` keeps the lines that were printed and the files that exist,
  and fails with the words of a POSIX system.
-/
import WasmScript.Text.Path
import WasmScript.Text.Quoted
import WasmScript.Text.Units

namespace WasmScript.CommandLine

/-- What a command needs from its surroundings.  Operations on files give the words of an error
when they fail. -/
structure Console (m : Type → Type) where
  log : String → m Unit
  error : String → m Unit
  readFile : String → m (Except String ByteArray)
  /-- Makes a directory and those around it. -/
  makeDirectory : String → m (Except String Unit)
  writeFile : String → String → m (Except String Unit)
  /-- How long the current stage has taken. -/
  elapsed : m String

/-! ### Directories in memory -/

inductive Stream where
  | log
  | error
deriving DecidableEq, Repr, Inhabited

namespace Stream

def name : Stream → String
  | .log => "log"
  | .error => "error"

end Stream

/-- Files and directories by the segments of their absolute paths, and the lines printed so far,
the last one first. -/
structure Directory where
  /-- The path of the working directory. -/
  cwd : String
  files : List (List String × ByteArray) := []
  directories : List (List String) := []
  lines : List (Stream × String) := []

namespace Directory

/-- The segments of the absolute path of a path; their names are characters alone. -/
def locate (d : Directory) (path : String) : List String :=
  Path.segments (Units.written <| if Path.isAbsolute path then path else d.cwd ++ "/" ++ path)

def content? (d : Directory) (place : List String) : Option ByteArray := d.files.lookup place

/-- Whether there is a directory at a place.  The working directory and those around it exist. -/
def isDirectory (d : Directory) (place : List String) : Bool :=
  d.directories.contains place || place.isPrefixOf (Path.segments d.cwd)

/-- Whether a file stands where a directory around a place would have to be. -/
def isBlocked (d : Directory) (place : List String) : Bool :=
  (List.range place.length).any fun n => (d.content? (place.take n)).isSome

def maxNameBytes : Nat := 255

def maxPathBytes : Nat := 4095

/-- Whether a path is too long, or names something too long in a directory that exists. -/
def isTooLong (d : Directory) (path : String) : Bool :=
  let place := d.locate path
  decide (maxPathBytes < (Units.toUTF8 path).size) || place.zipIdx.any fun (name, n) =>
    decide (maxNameBytes < name.utf8ByteSize) && d.isDirectory (place.take n)

/-- Refuses what is no path, because a zero byte would end it early. -/
def checkPath (path : String) : Except String Unit :=
  if path.toList.contains '\x00' then
    .error ("The argument 'path' must be a string, Uint8Array, or URL without null bytes. Received "
      ++ Quoted.encodeShown path)
  else .ok ()

/-- A call with the path that it takes, as complaints mention it. -/
def callOn (call path : String) : String := call ++ " '" ++ Units.settled path ++ "'"

/-- Performs a call that takes a path, which complaints show in some way, unless the path cannot
be one. -/
def onPath {α : Type} (path shown call : String)
    (act : Directory → StateM Directory (Except String α)) :
    StateM Directory (Except String α) := do
  match checkPath shown with
  | .error message => pure (.error message)
  | .ok () => do
    let d ← get
    if d.isTooLong path then
      pure (.error ("ENAMETOOLONG: name too long, " ++ callOn call shown))
    else act d

def readFile (path : String) : StateM Directory (Except String ByteArray) := do
  let shown := Path.resolve (← get).cwd path
  onPath path shown "open" fun d => do
    let place := d.locate path
    let call := callOn "open" shown
    match d.content? place with
    | some bytes => pure (.ok bytes)
    | none =>
      if d.isBlocked place then pure (.error ("ENOTDIR: not a directory, " ++ call))
      else if d.isDirectory place then
        pure (.error "EISDIR: illegal operation on a directory, read")
      else pure (.error ("ENOENT: no such file or directory, " ++ call))

def withParents (place : List String) : List (List String) :=
  (List.range (place.length + 1)).map fun n => place.take n

def makeDirectory (path : String) : StateM Directory (Except String Unit) :=
  onPath path path "mkdir" fun d => do
    let place := d.locate path
    let call := callOn "mkdir" path
    if d.isBlocked place then pure (.error ("ENOTDIR: not a directory, " ++ call))
    else if (d.content? place).isSome then pure (.error ("EEXIST: file already exists, " ++ call))
    else if place.any fun name => decide (maxNameBytes < name.utf8ByteSize) then
      pure (.error ("ENAMETOOLONG: name too long, " ++ call))
    else
      set { d with directories := d.directories ++ withParents place }
      pure (.ok ())

/-- Writes a file, in the place of one that is there. -/
def writeFile (path text : String) : StateM Directory (Except String Unit) :=
  onPath path path "open" fun d => do
    let place := d.locate path
    let call := callOn "open" path
    if d.isBlocked place then pure (.error ("ENOTDIR: not a directory, " ++ call))
    else if d.isDirectory place then
      pure (.error ("EISDIR: illegal operation on a directory, " ++ call))
    else if d.isDirectory place.dropLast then
      set { d with files := (place, Units.toUTF8 text) :: d.files.filter fun f => f.1 ≠ place }
      pure (.ok ())
    else pure (.error ("ENOENT: no such file or directory, " ++ call))

def print (stream : Stream) (line : String) : StateM Directory Unit :=
  modify fun d => { d with lines := (stream, line) :: d.lines }

/-- The console of a directory, on which nothing takes any time that is known. -/
def console : Console (StateM Directory) :=
  { log := print .log
    error := print .error
    readFile
    makeDirectory
    writeFile
    elapsed := pure "<time>ms" }

def addFile (d : Directory) (path : String) (bytes : ByteArray) : Directory :=
  let place := d.locate path
  { d with
    files := (place, bytes) :: d.files
    directories := d.directories ++ withParents place.dropLast }

end Directory

end WasmScript.CommandLine
