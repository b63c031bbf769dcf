import LoxLang.Artifact
import LoxLang.Files
import LoxLang.Session
import LoxLang.Text.Quoted

/-!
# Pipelines

A pipeline runs one source, as often as it is asked to, on one session. It records the artifacts of each run and
saves those it is told to next to the source's file.
-/

namespace LoxLang

/-- A source with what is to be done with it. -/
structure Job where
  source : String
  /-- Where the source comes from, unless it was typed in. -/
  file? : Option Location
  dump : List ArtifactName
  stopAfter : Option ArtifactName
deriving Inhabited

/-- A job with everything that has come of it. -/
structure Pipeline where
  job : Job
  session : Session
  files : FileTree
  /-- The recorded artifacts, one for each record. -/
  recorded : List ArtifactName := []
  /-- The statements of the last run that was parsed. -/
  program : List SourceStmt := []
  /-- What was said about saving. -/
  notices : List String := []
deriving Inhabited

/-- Why saving an artifact came to nothing, if the system did not just refuse to open the file. -/
inductive SaveError where
  | unknownName (name : String)
  /-- A part of the data cannot be written. -/
  | unwritable (o : Obstacle)
  /-- The file has no proper path. -/
  | file (e : FileError)
deriving DecidableEq, Inhabited

/-- What is said about an artifact that was not saved. -/
def SaveError.message? : SaveError → Option String
  | unknownName name =>
    some ("Unknown pipeline stage '" ++ name ++ "'. Expected one of: " ++
      ", ".intercalate (ArtifactName.all.map (·.name)) ++ ".")
  | unwritable o => o.message?
  | file e => some e.text

/-- Why a run of a pipeline broke off. -/
inductive Breakdown where
  | stop (s : Stop)
  | unsaved (e : SaveError)
deriving Inhabited

namespace Job

/-- A source that comes from a file is shown by its path. -/
def shown (job : Job) : String :=
  job.file?.elim "<stdin>" (·.shown)

/-- What keeps the tree of a job's source from being saved. -/
def treeObstacle? (job : Job) : Option Obstacle := do
  LoxLang.treeObstacle? (← parse (scan job.source).tokens).program

end Job

namespace Pipeline

/-- A pipeline that has not run. -/
def start (job : Job) (session : Session) (files : FileTree) : Pipeline :=
  { job, session, files }

/-- Where an artifact is saved, and how that is shown: beside the source's file, or else in the working directory
under a fixed name. -/
def target (p : Pipeline) (name : ArtifactName) : Location × String :=
  let extension := name.name ++ ".json"
  match p.job.file? with
  | some file =>
    let l := file.withExtension extension
    (l, l.shown)
  | none =>
    let path := "stdin_output." ++ extension
    (.ofPath p.files.directory path, path)

/-- Saves a document as an artifact. A file that cannot be written is noted and nothing more; of a document that
cannot be written the text before the obstacle is saved. -/
def save (name : ArtifactName) (data : Json) (p : Pipeline) : Except SaveError Unit × Pipeline :=
  let (location, shown) := p.target name
  let announcement := "--- Saving artifact '" ++ name.name ++ "' to " ++ shown ++ " ---"
  let p := { p with notices := p.notices ++ [announcement] }
  let draft := data.write
  match p.files.write location draft.text with
  | .ok files =>
    let result := match draft.obstacle? with
      | none => .ok ()
      | some o => .error (.unwritable o)
    (result, { p with files })
  | .error e =>
    match e.number? with
    | none => (.error (.file e), p)
    -- the run goes on, and the user is told
    | some number =>
      let complaint := "Error: Could not save artifact '" ++ name.name ++ "': [Errno " ++ toString number ++
        "] " ++ e.text ++ ": " ++ Quoted.text shown
      (.ok (), { p with notices := p.notices ++ [complaint] })

/-- Saves a document under a name that may be no artifact's. -/
def saveNamed (name : String) (data : Json) (p : Pipeline) : Except SaveError Unit × Pipeline :=
  match ArtifactName.ofName? name with
  | some artifact => p.save artifact data
  | none => (.error (.unknownName name), p)

/-- Records an artifact and saves it if it is to be dumped. -/
def record (name : ArtifactName) (data : Json) (p : Pipeline) : Except SaveError Unit × Pipeline :=
  let p := { p with recorded := p.recorded ++ [name] }
  if name ∈ p.job.dump then p.save name data else (.ok (), p)

/-- Records artifacts one after the other, until one is not saved. -/
def recordAll : List (ArtifactName × Json) → Pipeline → Except SaveError Unit × Pipeline
  | [], p => (.ok (), p)
  | (name, data) :: rest, p =>
    match p.record name data with
    | (.ok _, p) => recordAll rest p
    | (.error e, p) => (.error e, p)

/-- What a step leaves to be recorded. -/
def artifactsOf (step : Step) : List (ArtifactName × Json) :=
  (.tokens, tokensArtifact step.tokens) ::
    ((step.program?.map fun program => (.ast, treeArtifact program)).toList ++
      (step.table?.map fun table => (.resolution, tableArtifact table)).toList)

/-- Whether a run breaks off at an artifact: it is to be dumped, and either there is no path to save it at, or its
file can be opened and the data not be written. -/
def breaksAt (p : Pipeline) (name : ArtifactName) : Bool :=
  name ∈ p.job.dump &&
    match p.files.write (p.target name).1 "" with
    | .ok _ => name = .ast && p.job.treeObstacle?.isSome
    | .error e => e.number?.isNone

/-- The first artifact after which a run ends: the one that it is to stop after, or one that it breaks off at. -/
def lastArtifact? (p : Pipeline) : Option ArtifactName :=
  ArtifactName.all.find? fun name => p.job.stopAfter = some name || p.breaksAt name

/-- Runs the job once more. -/
def run (settings : Settings) (p : Pipeline) : Option Breakdown × Pipeline :=
  let last? := p.lastArtifact?
  let ⟨job, session, files, recorded, program, notices⟩ := p
  let step := session.step settings (.resolution ∈ job.dump) last? job.source
  let p : Pipeline :=
    ⟨job, step.session, files, recorded, step.program?.getD program, notices⟩
  match p.recordAll (artifactsOf step) with
  | (.ok _, p) => (step.stop?.map .stop, p)
  | (.error e, p) => (some (.unsaved e), p)

/-- Runs the job so many times. A run that breaks off does not keep the next one from starting; the last breakdown
is told. -/
def runTimes (settings : Settings) : Nat → Pipeline → Option Breakdown × Pipeline
  | 0, p => (none, p)
  | n + 1, p =>
    let (first?, p) := p.run settings
    let (later?, p) := runTimes settings n p
    (later? <|> first?, p)

/-- The artifacts in the order of their first record. -/
def artifacts (p : Pipeline) : List ArtifactName :=
  p.recorded.eraseDups

end Pipeline

end LoxLang
