import LoxLang.CommandLine.Arguments
import LoxLang.Pipeline
import LoxLang.Tree.Printer

/-!
# The command

Runs a script, or reads and runs one line after the other. What is written and the exit code are values; an outer
layer passes them on.
-/

namespace LoxLang

namespace CommandLine

/-! ### Exit codes and colours

The codes tell a rejected program from one that failed while it ran. -/

/-- The exit code for a program that was rejected before it ran. -/
def exitRejected : Nat := 65

/-- The exit code for a script that cannot be read. -/
def exitUnreadable : Nat := 66

/-- The exit code for a program that failed while it ran. -/
def exitFailed : Nat := 70

/-- The exit code for wrong arguments. -/
def exitUsage : Nat := 2

/-- The exit code for an interrupted prompt. -/
def exitInterrupted : Nat := 130

/-- A text in red, for complaints. -/
def red (s : String) : String :=
  "\x1b[91m" ++ s ++ "\x1b[0m"

/-- A text in green, for success. -/
def green (s : String) : String :=
  "\x1b[92m" ++ s ++ "\x1b[0m"

/-! ### What is written

The two outputs are kept apart and put together from their parts. -/

/-- What has been written to the two outputs. -/
structure Written where
  out : String := ""
  err : String := ""
deriving DecidableEq, Inhabited

namespace Written

/-- One text after another. -/
def append (a b : Written) : Written :=
  ⟨a.out ++ b.out, a.err ++ b.err⟩

instance : Append Written := ⟨append⟩

/-- Lines on the ordinary output. -/
def lines (ls : List String) : Written :=
  { out := String.join (ls.map (· ++ "\n")) }

/-- Lines on the output for errors. -/
def complaints (ls : List String) : Written :=
  { err := String.join (ls.map (· ++ "\n")) }

end Written

/-- The diagnostics of a log. -/
def reportLog (log : Log) : Written :=
  .complaints (log.diagnostics.map fun d => red d.text)

/-- A program as parenthesised text, if that is asked for. -/
def showTree (wanted : Bool) (program : List SourceStmt) : Written :=
  if wanted then .lines [(programText program).toOption.getD ""] else {}

/-- What the program of a run has printed since the machine had printed so many lines. -/
def printedSince (count : Nat) (m : Machine) : Written :=
  .lines (m.printed.toList.drop count)

/-- The exit code that a log stands for. -/
def exitCode (log : Log) : Nat :=
  if log.hadError then exitRejected else if log.hadRuntimeError then exitFailed else 0

/-- How a command ends. -/
structure Ending where
  exit : Nat
  written : Written
  files : FileTree
deriving Inhabited

/-- Why a command has no ending. -/
inductive Abort where
  /-- The path of the script is no path. -/
  | path (e : FileError)
  /-- A run broke off. -/
  | run (b : Breakdown)
deriving Inhabited

/-! ### Scripts

A script is read and run once, on a session of its own. -/

/-- Runs the text of a script that lies at a location. There is no ending if the run breaks off. -/
def runText (settings : Settings) (arguments : Arguments) (file : Location) (source : String)
    (files : FileTree) : Except Breakdown Ending :=
  let artifact? := arguments.compile?.map (·.2.1)
  let job : Job := { source, file? := some file, dump := artifact?.toList, stopAfter := artifact? }
  let (broken?, p) := (Pipeline.start job .initial files).run settings
  let exit := exitCode p.session.log
  let success :=
    match arguments.compile? with
    | some (choice, _, title) =>
      if exit = 0 then
        Written.lines ["", green ("--- Stage '" ++ choice ++ " (" ++ title ++ ")' completed ---")]
      else {}
    | none => {}
  let written := .lines p.notices ++ printedSince 0 p.session.machine ++
    showTree arguments.printAst p.program ++ reportLog p.session.log ++ success
  match broken? with
  | some b => .error b
  | none => .ok { exit, written, files := p.files }

/-- Complains about a script that is not run. -/
def refuse (exit : Nat) (complaint : String) (files : FileTree) : Ending :=
  { exit, written := .complaints [red ("ERROR: " ++ complaint)], files }

/-- Runs a script. -/
def runScript (settings : Settings) (arguments : Arguments) (script : String) (files : FileTree) :
    Except Abort Ending :=
  let file := Location.ofPath files.directory script
  match files.read file with
  | .error .nullCharacter => throw (.path .nullCharacter)
  | .error .missing => return refuse exitUnreadable ("Script file '" ++ script ++ "' not found.") files
  | .error e =>
    return refuse exitUnreadable ("Could not read script file '" ++ script ++ "': " ++ e.text) files
  | .ok content =>
    match decodeText? content with
    | none => return refuse exitRejected ("Script file '" ++ script ++ "' is not valid UTF-8.") files
    | some source => (runText settings arguments file source files).mapError .run

/-! ### The prompt

All lines are run on one session, so that a later line sees what an earlier one has declared. -/

/-- What asks for a line. -/
def prompt : String := "> "

/-- Runs a line, unless the run breaks off; the next one starts with an empty log. -/
def runLine (settings : Settings) (printAst : Bool) (line : String) (s : Session) :
    Except Stop (Written × Session) :=
  let before := s.machine.printed.size
  let step := s.step settings false none line
  let written := printedSince before step.session.machine ++ showTree printAst (step.program?.getD []) ++
    reportLog step.session.log
  match step.stop? with
  | some stop => .error stop
  | none => .ok (written, step.session.resetLog)

/-- Runs line after line. When no more lines come the prompt ends, unless it is interrupted. -/
def runLines (settings : Settings) (printAst interrupted : Bool) :
    List String → Session → Except Stop (Nat × Written)
  | [], _ => return if interrupted then (exitInterrupted, { out := prompt }) else (0, { out := prompt ++ "\n" })
  | line :: lines, s => do
    let (written, s) ← runLine settings printAst line s
    let (exit, rest) ← runLines settings printAst interrupted lines s
    return (exit, { out := prompt : Written } ++ written ++ rest)

/-- The lines of a text. A last line without line break counts, an empty one does not. -/
def linesOf (text : String) : List String :=
  let lines := text.splitOn "\n"
  if lines.getLast? = some "" then lines.dropLast else lines

/-! ### The whole command

The arguments decide between the two. -/

/-- What can be asked for, in a few lines. -/
def usage : String :=
  "usage: lox [-h] [-c N] [--print-ast] [script]\n\n" ++
    "Run a Lox script, or start an interactive prompt.\n\n" ++
    "  -c N, --compile N  stop after an artifact and save it: 1 tokens, 2 tree, 3 distances\n" ++
    "  --print-ast        print the parsed statements in parenthesized form\n"

/-- What there is to do: a script, or a prompt. -/
inductive Task where
  | script (arguments : Arguments) (path : String)
  | prompt (printAst : Bool)
deriving DecidableEq, Inhabited

/-- The task that arguments set, or how the command ends without one. -/
def task (arguments : List String) : Except (Nat × Written) Task :=
  match read arguments with
  | .ok got =>
    match got.script? with
    | some path => return .script got path
    | none => return .prompt got.printAst
  | .error .help => throw (0, { out := usage })
  | .error (.error e) => throw (exitUsage, .complaints ["lox: error: " ++ e.message])

/-- Runs the command on files and an input that are given in full. -/
def run (settings : Settings) (arguments : List String) (files : FileTree) (input : String)
    (interrupted : Bool) : Except Abort Ending :=
  match task arguments with
  | .error (exit, written) => return { exit, written, files }
  | .ok (.script got path) => runScript settings got path files
  | .ok (.prompt printAst) => do
    let lines := linesOf (String.ofList (decodeText?.newlines input.toList))
    let (exit, written) ← (runLines settings printAst interrupted lines .initial).mapError (.run ∘ .stop)
    return { exit, written, files }

end CommandLine

end LoxLang
