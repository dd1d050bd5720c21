/-
  WasmScript/Main.lean
  ====================
  **The program** — the command line on the console and the files of the system.
-/
import WasmScript.CommandLine.Command

namespace WasmScript.CommandLine

def systemError (call : String) : IO.Error → String
  | .noFileOrDirectory .. => "ENOENT: no such file or directory, " ++ call
  | .alreadyExists .. => "EEXIST: file already exists, " ++ call
  | .permissionDenied .. => "EACCES: permission denied, " ++ call
  | .inappropriateType .. => "ENOTDIR: not a directory, " ++ call
  | e => e.toString

/-- Performs a call of the system; gives the words of the error if it fails. -/
def attempt {α : Type} (call : String) (act : IO α) : IO (Except String α) := do
  match ← act.toBaseIO with
  | .ok a => pure (.ok a)
  | .error e => pure (.error (systemError call e))

/-- The console of the system, for a command that started at some time. -/
def systemConsole (cwd : String) (start : Nat) : Console IO :=
  { log := fun line => IO.println (Units.written line)
    error := fun line => IO.eprintln (Units.written line)
    readFile := fun path =>
      let place := Path.resolve cwd path
      attempt ("open '" ++ place ++ "'") (IO.FS.readBinFile (Units.written place))
    makeDirectory :=
      fun path => attempt ("mkdir '" ++ path ++ "'") (IO.FS.createDirAll (Units.written path))
    writeFile := fun path text =>
      attempt ("open '" ++ path ++ "'")
        (IO.FS.writeBinFile (Units.written path) (Units.toUTF8 text))
    elapsed := do
      let now ← IO.monoMsNow
      pure (toString (now - start) ++ "ms") }

end WasmScript.CommandLine

def main (args : List String) : IO UInt32 := do
  let cwd ← IO.currentDir
  let start ← IO.monoMsNow
  let code ← WasmScript.CommandLine.run
    (WasmScript.CommandLine.systemConsole (WasmScript.Units.carried cwd.toString) start)
    (args.map WasmScript.Units.carried)
  pure code.toUInt32
