import LoxLang.CommandLine

/-!
# The program

Passes arguments, files and lines to the command, and what it writes back to the outside.
-/

namespace LoxLang

namespace CommandLine

/-- What is said about a run that broke off. -/
def breakdownText : Breakdown → String
  | .unsaved e => e.message?.getD "An artifact cannot be saved."
  | .stop (.error d) => d.text
  | .stop (.fault f) => f.message?.getD "Internal error."
  | .stop .tooDeep => "The program is nested too deeply."
  | .stop .tooLong => "A loop goes on for too long."

/-- What is said about a command without ending. -/
def Abort.text : Abort → String
  | .path e => e.text
  | .run b => breakdownText b

/-- Passes on what has been written. -/
def Written.emit (w : Written) : IO Unit := do
  IO.print w.out
  (← IO.getStdout).flush
  IO.eprint w.err

/-- The file or directory at a location, if there is one. -/
def entryAt? (l : Location) : IO (Option FileEntry) := do
  let path := (← IO.currentDir) / l.shown
  if ← path.isDir then
    return some .directory
  else if ← path.pathExists then
    return some (.file (← IO.FS.readBinFile path))
  else
    return none

/-- The locations from the root down to a location. -/
def locationsTo (l : Location) : List Location :=
  (List.range l.names.length).map fun n => { l with names := l.names.take (n + 1) }

/-- The part of the file system that running a script at a location can see. -/
def lookAround (directory file : Location) : IO FileTree := do
  let outputs := ArtifactName.all.map fun a => file.withExtension (a.name ++ ".json")
  let mut entries := []
  for l in locationsTo file ++ outputs do
    if let some e ← entryAt? l then
      entries := entries ++ [(l.names, e)]
  return ⟨directory, entries⟩

/-- Writes the artifacts that a run has left. -/
def writeBack (before after : FileTree) (file : Location) : IO Unit := do
  for a in ArtifactName.all do
    let l := file.withExtension (a.name ++ ".json")
    if let some (.file content) := after.entry? l.names then
      let changed :=
        match before.entry? l.names with
        | some (.file old) => old != content
        | _ => true
      if changed then
        IO.FS.writeBinFile l.shown content

/-- Reads and runs lines until the input ends or a run breaks off. -/
partial def promptLoop (settings : Settings) (printAst : Bool) (s : Session) : IO UInt32 := do
  IO.print prompt
  (← IO.getStdout).flush
  let line ← (← IO.getStdin).getLine
  if line.isEmpty then
    IO.println ""
    return 0
  else
    let text := String.ofList (line.toList.filter fun c => c != '\n' && c != '\r')
    match runLine settings printAst text s with
    | .error stop =>
      IO.eprintln (breakdownText (.stop stop))
      return 1
    | .ok (written, s) =>
      written.emit
      promptLoop settings printAst s

end CommandLine

end LoxLang

open LoxLang CommandLine in
/-- Runs the command on the real files and the real input. -/
def main (arguments : List String) : IO UInt32 := do
  let start ← IO.monoMsNow
  let settings := Settings.standard fun n => (start.toFloat + n.toFloat) / 1000.0
  match task arguments with
  | .error (exit, written) =>
    written.emit
    return exit.toUInt32
  | .ok (.script got path) =>
    let directory := Location.ofPath .root (← IO.currentDir).toString
    let file := Location.ofPath directory path
    let files ← lookAround directory file
    match runScript settings got path files with
    | .error e =>
      IO.eprintln e.text
      return 1
    | .ok ending =>
      writeBack files ending.files file
      ending.written.emit
      return ending.exit.toUInt32
  | .ok (.prompt printAst) =>
    promptLoop settings printAst .initial
