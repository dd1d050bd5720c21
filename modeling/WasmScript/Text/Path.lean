/-
  WasmScript/Text/Path.lean
  =========================
  **Paths** — names of files and directories, separated by slashes.

  A path is taken apart into its segments; empty segments and `.` mean nothing and `..`
  takes back the segment before it.  All of this is done on the text alone, without a
  look at the files.
-/
namespace WasmScript.Path

def isAbsolute (path : String) : Bool := path.toList.head? = some '/'

/-- The parts of some characters between slashes. -/
def splitChars : List Char → List (List Char)
  | [] => [[]]
  | c :: rest =>
    if c = '/' then [] :: splitChars rest
    else
      match splitChars rest with
      | part :: parts => (c :: part) :: parts
      | [] => [[c]]

def split (path : String) : List String := (splitChars path.toList).map String.ofList

/-- Segments put together, the last one first, after some that are there already.  Above the
root there is nothing; a relative path keeps the steps that lead out of its start. -/
def pushSegments (absolute : Bool) : List String → List String → List String
  | done, [] => done
  | done, s :: rest =>
    if s = "" ∨ s = "." then pushSegments absolute done rest
    else if s = ".." then
      match done with
      | [] => pushSegments absolute (if absolute then [] else [".."]) rest
      | top :: below =>
        if top = ".." then pushSegments absolute (".." :: done) rest
        else pushSegments absolute below rest
    else pushSegments absolute (s :: done) rest

def segments (path : String) : List String :=
  (pushSegments (isAbsolute path) [] (split path)).reverse

/-- The shortest path with the same meaning.  A slash at the end is kept. -/
def normalize (path : String) : String :=
  let absolute := isAbsolute path
  let trailing := path.toList.getLast? = some '/'
  match segments path with
  | [] => if absolute then "/" else if trailing then "./" else "."
  | parts =>
    (if absolute then "/" else "") ++ "/".intercalate parts ++ (if trailing then "/" else "")

/-- One path after another, brought into the shortest form. -/
def join (parent name : String) : String :=
  if parent = "" then normalize name
  else if name = "" then normalize parent
  else normalize (parent ++ "/" ++ name)

/-- The characters of a path without the slashes at its end, the last one first. -/
def reversedTrimmed (path : String) : List Char := path.toList.reverse.dropWhile (· = '/')

def basename (path : String) : String :=
  String.ofList ((reversedTrimmed path).takeWhile (· ≠ '/')).reverse

/-- What stands before the last segment and its slash. -/
def dirname (path : String) : String :=
  match (reversedTrimmed path).dropWhile (· ≠ '/') with
  | [] => if isAbsolute path then "/" else "."
  | _ :: before =>
    match before with
    | [] => "/"
    | ['/'] => "//"
    | _ => String.ofList before.reverse

/-- The absolute path of a path, seen from a directory. -/
def resolve (cwd path : String) : String :=
  let whole := if isAbsolute path then path else cwd ++ "/" ++ path
  (if isAbsolute whole then "/" else "") ++ "/".intercalate (segments whole)

def withoutSuffix (path ending : String) : String :=
  if path.endsWith ending then String.ofList (path.toList.take (path.length - ending.length))
  else path

end WasmScript.Path
