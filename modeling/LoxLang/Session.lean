import LoxLang.Parse.Program
import LoxLang.Run.Evaluate
import LoxLang.Token.Scan

/-!
# Sessions

A session runs programs one after the other on one machine. Each program is scanned, parsed, resolved and then
executed; it is not resolved if its syntax is wrong, and not executed if anything is wrong with it.
-/

namespace LoxLang

/-- The data between the stages that can be looked at. -/
inductive ArtifactName where
  | tokens | ast | resolution
deriving DecidableEq, Inhabited

namespace ArtifactName

/-- All artifacts in the order in which they arise. -/
def all : List ArtifactName := [tokens, ast, resolution]

/-- The name of an artifact. -/
def name : ArtifactName → String
  | tokens => "tokens"
  | ast => "ast"
  | resolution => "resolution"

/-- The artifact of a name. -/
def ofName? (s : String) : Option ArtifactName :=
  all.find? (·.name == s)

end ArtifactName

/-! ### Settings

What meets the first limit is deep recursion. The second one is there to make the evaluator total. -/

/-- The limits of ordinary runs: nesting within the stack of a process, loops as long as anyone waits. -/
def Settings.standard (clock : Nat → Float) : Settings :=
  { nesting := 10000, rounds := 1000000000000000000, clock }

/-! ### Sessions

The log is part of the session, and only `resetLog` empties it: with an old mistake in the log, a new program is not
executed either. -/

/-- What lives on from one program to the next: the machine, the distances of all programs so far, and the log. -/
structure Session where
  machine : Machine
  table : List Entry
  log : Log
deriving Inhabited

namespace Session

/-- A session that has run nothing. -/
def initial : Session :=
  ⟨.initial, [], .empty⟩

/-- Forgets the diagnostics. -/
def resetLog (s : Session) : Session :=
  { s with log := .empty }

/-- Adds diagnostics to the log. -/
def report (s : Session) (ds : List Diagnostic) : Session :=
  { s with log := s.log.append ds }

/-- Executes a resolved program. A mistake of the program goes to the log; any other stop is handed back. -/
def execute (settings : Settings) (program : List (Stmt Hops)) (s : Session) :
    Option Stop × Session :=
  let ⟨machine, table, log⟩ := s
  match machine.run settings program with
  | (some (.error d), machine) => (none, ⟨machine, table, log.report d⟩)
  | (stop?, machine) => (stop?, ⟨machine, table, log⟩)

end Session

/-! ### Steps

A step gives what has been made of a program at each stage, as far as it got. -/

/-- What came of one program: the session after it, what arose on the way, and the reason for an unforeseen
stop. -/
structure Step where
  session : Session
  tokens : List Token
  program? : Option (List SourceStmt) := none
  /-- The whole table, if it was asked for and the program got that far. -/
  table? : Option (List Entry) := none
  stop? : Option Stop := none

namespace Session

/-- Runs a program up to an artifact, or to the end. The table is kept if `wantsTable`. -/
def step (settings : Settings) (wantsTable : Bool) (stopAfter : Option ArtifactName) (source : String)
    (s : Session) : Step :=
  let scanned := scan source
  let tokens := scanned.tokens
  let s := s.report scanned.diagnostics
  if stopAfter = some .tokens then
    { session := s, tokens }
  else
    match parse tokens with
    | none => { session := s, tokens, stop? := some (.fault .absent) }
    | some ⟨program, diagnostics⟩ =>
      let s := s.report diagnostics
      let program? := some program
      -- a mark that an earlier program has left counts too
      if s.log.hadError ∨ stopAfter = some .ast then
        { session := s, tokens, program? }
      else
        let (resolved, found) := resolve program
        let s := { s.report found.diagnostics with table := s.table ++ found.entries }
        -- the entries found before the fault stay in the table
        if let some fault := found.fault? then
          { session := s, tokens, program?, stop? := some (.fault fault) }
        else
          let table? := if wantsTable ∨ stopAfter = some .resolution then some s.table else none
          if s.log.hadError ∨ stopAfter = some .resolution then
            { session := s, tokens, program?, table? }
          else
            let (stop?, s) := s.execute settings resolved
            { session := s, tokens, program?, table?, stop? }

/-- Runs whatever of a program could be parsed, without resolving it: every name is a global. -/
def stepUnresolved (settings : Settings) (source : String) (s : Session) : Step :=
  let scanned := scan source
  let tokens := scanned.tokens
  let s := s.report scanned.diagnostics
  match parse tokens with
  | none => { session := s, tokens, stop? := some (.fault .absent) }
  | some ⟨program, diagnostics⟩ =>
    let unresolved := Stmt.mapAllNotes (fun _ => none) program
    let (stop?, s) := (s.report diagnostics).execute settings unresolved
    { session := s, tokens, program? := some program, stop? }

end Session

end LoxLang
