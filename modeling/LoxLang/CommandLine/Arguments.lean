import LoxLang.Session
import LoxLang.Text.Digit
import LoxLang.Text.Quoted

/-!
# Arguments

The arguments of a command: at most one script, `-c` or `--compile` with the number of an artifact, and
`--print-ast`. Long options may be shortened; an option's value may follow it or be attached to it; after `--`
everything is a plain word.
-/

namespace LoxLang

namespace CommandLine

/-! ### Options

A long spelling may be shortened as long as it belongs to one option. -/

/-- The options of the command. -/
inductive Flag where
  | help | compile | printAst
deriving DecidableEq, Inhabited

namespace Flag

/-- The long spelling of an option. -/
def long : Flag → String
  | help => "--help"
  | compile => "--compile"
  | printAst => "--print-ast"

/-- All spellings of an option, as complaints show them. -/
def shown : Flag → String
  | help => "-h/--help"
  | compile => "-c/--compile"
  | printAst => "--print-ast"

/-- The option of a whole spelling. -/
def ofSpelling? : String → Option Flag
  | "-h" => some help
  | "--help" => some help
  | "-c" => some compile
  | "--compile" => some compile
  | "--print-ast" => some printAst
  | _ => none

/-- The options whose long spelling begins so. -/
def completions (s : String) : List Flag :=
  if s.startsWith "--" then [help, compile, printAst].filter (·.long.startsWith s) else []

end Flag

/-- The choices of `--compile`: an artifact and what it is called. -/
def choices : List (String × ArtifactName × String) :=
  [("1", .tokens, "Token Stream"), ("2", .ast, "Abstract Syntax Tree"),
   ("3", .resolution, "Scope Distance Table")]

/-! ### Classes of arguments

What an argument is by its looks does not depend on the arguments before it. -/

/-- What an argument is by its looks. -/
inductive Looks where
  | word
  /-- An option, with the value attached to it. -/
  | flag (f : Flag) (attached? : Option String)
  /-- The beginning of several options. -/
  | ambiguous (candidates : List Flag)
  | unknownFlag
deriving DecidableEq, Inhabited

/-- Whether an argument is a negative number: digits, or digits with a point before the last of them. A line break
at the end does not count. -/
def isNegativeNumber (s : String) : Bool :=
  match s.toList with
  | '-' :: cs =>
    let number := if cs.getLast? = some '\n' then cs.dropLast else cs
    let whole := number.takeWhile isDecimalDigit
    match number.dropWhile isDecimalDigit with
    | [] => !whole.isEmpty
    | '.' :: fraction => !fraction.isEmpty && fraction.all isDecimalDigit
    | _ => false
  | _ => false

/-- Splits at the first equals sign. -/
def splitEquals (s : String) : String × Option String :=
  let cs := s.toList
  let value := (cs.dropWhile (· != '=')).drop 1
  (String.ofList (cs.takeWhile (· != '=')), if s.contains '=' then some (String.ofList value) else none)

/-- A short option with the rest of the argument attached to it. -/
def ofCluster? (s : String) : Option Looks :=
  match s.toList with
  | '-' :: 'h' :: rest => some (.flag .help (some (String.ofList rest)))
  | '-' :: 'c' :: rest => some (.flag .compile (some (String.ofList rest)))
  | _ => none

/-- What an argument in front of `--` is. -/
def looks (s : String) : Looks :=
  if !s.startsWith "-" ∨ s = "-" then .word
  else
    match Flag.ofSpelling? s with
    | some f => .flag f none
    | none =>
      let (front, value?) := splitEquals s
      match value?.bind fun _ => Flag.ofSpelling? front with
      | some f => .flag f value?
      | none =>
        match Flag.completions front with
        | [f] => .flag f value?
        | f :: fs => .ambiguous (f :: fs)
        | [] =>
          match ofCluster? s with
          | some l => l
          | none => if isNegativeNumber s ∨ s.contains ' ' then .word else .unknownFlag

/-! ### Reading arguments

Options may stand anywhere, before or behind the script. -/

/-- What is asked for. -/
structure Arguments where
  script? : Option String := none
  compile? : Option (String × ArtifactName × String) := none
  printAst : Bool := false
deriving DecidableEq, Inhabited

/-- What is wrong with the arguments. -/
inductive ArgumentError where
  | expectedValue (f : Flag)
  | invalidChoice (value : String)
  | ignoredValue (f : Flag) (value : String)
  | ambiguous (argument : String) (candidates : List Flag)
  | unrecognized (arguments : List String)
  | compileWithoutScript
deriving DecidableEq, Inhabited

/-- What is said about wrong arguments. -/
def ArgumentError.message : ArgumentError → String
  | expectedValue f => "argument " ++ f.shown ++ ": expected one argument"
  | invalidChoice value =>
    "argument " ++ Flag.compile.shown ++ ": invalid choice: " ++ Quoted.text value ++ " (choose from " ++
      ", ".intercalate (choices.map fun c => Quoted.text c.1) ++ ")"
  | ignoredValue f value =>
    "argument " ++ f.shown ++ ": ignored explicit argument " ++ Quoted.text value
  | ambiguous argument candidates =>
    "ambiguous option: " ++ argument ++ " could match " ++ ", ".intercalate (candidates.map (·.long))
  | unrecognized arguments => "unrecognized arguments: " ++ " ".intercalate arguments
  | compileWithoutScript => "--compile requires a script path."

/-- Why no script is to be run. -/
inductive Refusal where
  | help
  | error (e : ArgumentError)
deriving DecidableEq, Inhabited

/-- The choice of a value. The value `--` takes back what was chosen before. -/
def choose (value : String) : Except Refusal (Option (String × ArtifactName × String)) :=
  if value = "--" then
    return none
  else
    match choices.find? (·.1 == value) with
    | some choice => return some choice
    | none => throw (.error (.invalidChoice value))

/-- Whether the arguments that follow an option begin with a value for it. -/
def valueFollows : List String → Bool
  | [] => false
  | value :: _ => value != "--" && looks value = .word

/-- What becomes of `-h` with something attached to it: more short options. Help comes in the end, unless one of
them is unknown or lacks its value. -/
def attachedToHelp (following : List String) : List Char → Refusal
  | [] => .error (.ignoredValue .help "")
  | ['h'] => .help
  | 'h' :: rest => attachedToHelp following rest
  | ['c'] => if valueFollows following then .help else .error (.expectedValue .compile)
  | 'c' :: _ => .help
  | rest => .error (.ignoredValue .help (String.ofList rest))

/-- Reads arguments from left to right. `wantsScript` says that no plain word has been taken for the script
yet; what has no place is collected in `extras`. -/
def readFrom (wantsScript : Bool) (got : Arguments) (extras : List String) :
    List String → Except Refusal (Arguments × List String)
  | [] => return (got, extras)
  | "--" :: words =>
    if wantsScript then
      match words with
      | [] => return (got, extras)
      | script :: words => return ({ got with script? := some script }, extras ++ words)
    else
      return (got, extras ++ "--" :: words)
  | s :: rest =>
    match looks s with
    | .unknownFlag => readFrom wantsScript got (extras ++ [s]) rest
    | .flag .help none => throw .help
    | .flag .printAst none => readFrom wantsScript { got with printAst := true } extras rest
    | .flag .compile (some value) => do
      readFrom wantsScript { got with compile? := ← choose value } extras rest
    | .flag .help (some value) =>
      throw (if s.startsWith "--" then .error (.ignoredValue .help value) else attachedToHelp rest value.toList)
    | .flag f (some value) => throw (.error (.ignoredValue f value))
    | .ambiguous candidates => throw (.error (.ambiguous s candidates))
    | .flag .compile none =>
      match rest with
      | [] => throw (.error (.expectedValue .compile))
      | value :: rest =>
        if valueFollows [value] then do
          readFrom wantsScript { got with compile? := ← choose value } extras rest
        else
          throw (.error (.expectedValue .compile))
    | .word =>
      if wantsScript then
        let got := { got with script? := some s }
        match rest with
        | "--" :: words => return (got, extras ++ words)
        | rest => readFrom false got extras rest
      else
        readFrom false got (extras ++ [s]) rest

/-- The first argument in front of `--` that begins several options. -/
def ambiguous? (arguments : List String) : Option ArgumentError :=
  (arguments.takeWhile (· != "--")).findSome? fun s =>
    match looks s with
    | .ambiguous candidates => some (.ambiguous s candidates)
    | _ => none

/-- Reads the arguments of a command. An ambiguous argument is refused before any other is looked at, and an
empty script is none. -/
def read (arguments : List String) : Except Refusal Arguments := do
  if let some e := ambiguous? arguments then
    throw (.error e)
  let (got, extras) ← readFrom true {} [] arguments
  if !extras.isEmpty then
    throw (.error (.unrecognized extras))
  let script? := got.script?.filter (· != "")
  if got.compile?.isSome ∧ script?.isNone then
    throw (.error .compileWithoutScript)
  return { got with script? }

end CommandLine

end LoxLang
