import LoxLang.Token

/-!
# Diagnostics

A diagnostic is a cause found in one of four stages, placed at a token or on a line. A log keeps the
diagnostics of a run in the order of their discovery.
-/

namespace LoxLang

/-- Where in its life a program was found wrong. -/
inductive Stage where
  | scan | parse | resolve | runtime
deriving DecidableEq, Inhabited

namespace Stage

/-- The name of a stage. -/
def name : Stage → String
  | .scan => "scan"
  | .parse => "parse"
  | .resolve => "resolve"
  | .runtime => "runtime"

/-- The stage of a name. -/
def ofName? (s : String) : Option Stage :=
  [scan, parse, resolve, runtime].find? (·.name == s)

end Stage

/-! ### Causes

Each cause has a code, by which it is told from the others, and a message with its details filled in. -/

/-- What can be wrong with a program. -/
inductive Cause where
  | unexpectedCharacter (char : String)
  | unterminatedString
  | expectedToken (expected : String)
  | expectExpression
  | invalidAssignmentTarget
  | tooManyArguments (limit : String)
  | tooManyParameters (limit : String)
  | duplicateVariable
  | selfReferentialInitializer
  | topLevelReturn
  | returnValueFromInitializer
  | thisOutsideClass
  | superOutsideClass
  | superWithoutSuperclass
  | selfInheritance
  | operandMustBeNumber
  | operandsMustBeNumbers
  | operandsMustBeNumbersOrStrings
  | notCallable
  | argumentCountMismatch (expected provided : String)
  | onlyInstancesHaveProperties
  | onlyInstancesHaveFields
  | undefinedProperty (name : String)
  | undefinedVariable (name : String)
  | superclassMustBeClass
  | stackOverflow
deriving DecidableEq, Inhabited

namespace Cause

/-- The code of a cause. -/
def code : Cause → String
  | unexpectedCharacter _ => "UNEXPECTED_CHARACTER"
  | unterminatedString => "UNTERMINATED_STRING"
  | expectedToken _ => "EXPECTED_TOKEN"
  | expectExpression => "EXPECT_EXPRESSION"
  | invalidAssignmentTarget => "INVALID_ASSIGNMENT_TARGET"
  | tooManyArguments _ => "TOO_MANY_ARGUMENTS"
  | tooManyParameters _ => "TOO_MANY_PARAMETERS"
  | duplicateVariable => "DUPLICATE_VARIABLE"
  | selfReferentialInitializer => "SELF_REFERENTIAL_INITIALIZER"
  | topLevelReturn => "TOP_LEVEL_RETURN"
  | returnValueFromInitializer => "RETURN_VALUE_FROM_INITIALIZER"
  | thisOutsideClass => "THIS_OUTSIDE_CLASS"
  | superOutsideClass => "SUPER_OUTSIDE_CLASS"
  | superWithoutSuperclass => "SUPER_WITHOUT_SUPERCLASS"
  | selfInheritance => "SELF_INHERITANCE"
  | operandMustBeNumber => "OPERAND_MUST_BE_NUMBER"
  | operandsMustBeNumbers => "OPERANDS_MUST_BE_NUMBERS"
  | operandsMustBeNumbersOrStrings => "OPERANDS_MUST_BE_NUMBERS_OR_STRINGS"
  | notCallable => "NOT_CALLABLE"
  | argumentCountMismatch _ _ => "ARGUMENT_COUNT_MISMATCH"
  | onlyInstancesHaveProperties => "ONLY_INSTANCES_HAVE_PROPERTIES"
  | onlyInstancesHaveFields => "ONLY_INSTANCES_HAVE_FIELDS"
  | undefinedProperty _ => "UNDEFINED_PROPERTY"
  | undefinedVariable _ => "UNDEFINED_VARIABLE"
  | superclassMustBeClass => "SUPERCLASS_MUST_BE_CLASS"
  | stackOverflow => "STACK_OVERFLOW"

/-- The cause of a code, its details taken from `detail`. It is absent if the code is unknown or one of
its details is missing; other details are ignored. -/
def ofCode? (code : String) (detail : String → Option String) : Option Cause :=
  match code with
  | "UNEXPECTED_CHARACTER" => (detail "char").map unexpectedCharacter
  | "UNTERMINATED_STRING" => some unterminatedString
  | "EXPECTED_TOKEN" => (detail "expected").map expectedToken
  | "EXPECT_EXPRESSION" => some expectExpression
  | "INVALID_ASSIGNMENT_TARGET" => some invalidAssignmentTarget
  | "TOO_MANY_ARGUMENTS" => (detail "limit").map tooManyArguments
  | "TOO_MANY_PARAMETERS" => (detail "limit").map tooManyParameters
  | "DUPLICATE_VARIABLE" => some duplicateVariable
  | "SELF_REFERENTIAL_INITIALIZER" => some selfReferentialInitializer
  | "TOP_LEVEL_RETURN" => some topLevelReturn
  | "RETURN_VALUE_FROM_INITIALIZER" => some returnValueFromInitializer
  | "THIS_OUTSIDE_CLASS" => some thisOutsideClass
  | "SUPER_OUTSIDE_CLASS" => some superOutsideClass
  | "SUPER_WITHOUT_SUPERCLASS" => some superWithoutSuperclass
  | "SELF_INHERITANCE" => some selfInheritance
  | "OPERAND_MUST_BE_NUMBER" => some operandMustBeNumber
  | "OPERANDS_MUST_BE_NUMBERS" => some operandsMustBeNumbers
  | "OPERANDS_MUST_BE_NUMBERS_OR_STRINGS" => some operandsMustBeNumbersOrStrings
  | "NOT_CALLABLE" => some notCallable
  | "ARGUMENT_COUNT_MISMATCH" => do
    return argumentCountMismatch (← detail "expected") (← detail "provided")
  | "ONLY_INSTANCES_HAVE_PROPERTIES" => some onlyInstancesHaveProperties
  | "ONLY_INSTANCES_HAVE_FIELDS" => some onlyInstancesHaveFields
  | "UNDEFINED_PROPERTY" => (detail "name").map undefinedProperty
  | "UNDEFINED_VARIABLE" => (detail "name").map undefinedVariable
  | "SUPERCLASS_MUST_BE_CLASS" => some superclassMustBeClass
  | "STACK_OVERFLOW" => some stackOverflow
  | _ => none

/-- What the user reads. -/
def message : Cause → String
  | unexpectedCharacter char => "Unexpected character '" ++ char ++ "'."
  | unterminatedString => "Unterminated string."
  | expectedToken expected => "Expect " ++ expected ++ "."
  | expectExpression => "Expect expression."
  | invalidAssignmentTarget => "Invalid assignment target."
  | tooManyArguments limit => "Can't have more than " ++ limit ++ " arguments."
  | tooManyParameters limit => "Can't have more than " ++ limit ++ " parameters."
  | duplicateVariable => "Already a variable with this name in this scope."
  | selfReferentialInitializer => "Can't read local variable in its own initializer."
  | topLevelReturn => "Can't return from top-level code."
  | returnValueFromInitializer => "Can't return a value from an initializer."
  | thisOutsideClass => "Can't use 'this' outside of a class."
  | superOutsideClass => "Can't use 'super' outside of a class."
  | superWithoutSuperclass => "Can't use 'super' in a class with no superclass."
  | selfInheritance => "A class can't inherit from itself."
  | operandMustBeNumber => "Operand must be a number."
  | operandsMustBeNumbers => "Operands must be numbers."
  | operandsMustBeNumbersOrStrings => "Operands must be two numbers or two strings."
  | notCallable => "Can only call functions and classes."
  | argumentCountMismatch expected provided =>
    "Expected " ++ expected ++ " arguments but got " ++ provided ++ "."
  | onlyInstancesHaveProperties => "Only instances have properties."
  | onlyInstancesHaveFields => "Only instances have fields."
  | undefinedProperty name => "Undefined property '" ++ name ++ "'."
  | undefinedVariable name => "Undefined variable '" ++ name ++ "'."
  | superclassMustBeClass => "Superclass must be a class."
  | stackOverflow => "Stack overflow."

end Cause

/-! ### Diagnostics

The place is a token or a line. Complaints about a text that is no token have a line. -/

/-- A cause with the stage that found it, and the token or the line it was found at. -/
structure Diagnostic where
  stage : Stage
  cause : Cause
  token? : Option Token := none
  line? : Option Int := none
deriving Inhabited

namespace Diagnostic

/-- A diagnostic at a token. -/
def ofToken (stage : Stage) (cause : Cause) (token : Token) : Diagnostic :=
  { stage, cause, token? := some token }

/-- The line given explicitly, else the token's, else none, which is written `0`. -/
def line (d : Diagnostic) : Int :=
  d.line?.getD (d.token?.elim 0 (·.line))

/-- The place in the line: the end of the text, a lexeme, or nothing. -/
def place (d : Diagnostic) : String :=
  match d.token? with
  | none => ""
  | some t => if t.kind = .eof then " at end" else " at '" ++ t.lexeme ++ "'"

/-- The message of the cause. -/
def message (d : Diagnostic) : String :=
  d.cause.message

/-- Whether the program was already running. -/
def isRuntime (d : Diagnostic) : Bool :=
  d.stage = .runtime

/-- The place and the message, without the line. -/
def summary (d : Diagnostic) : String :=
  "Error" ++ d.place ++ ": " ++ d.message

/-- The whole report in one line. -/
def text (d : Diagnostic) : String :=
  let label := if d.isRuntime then "Runtime error" else "Error"
  "[line " ++ toString d.line ++ "] " ++ label ++ d.place ++ ": " ++ d.message

end Diagnostic

/-! ### Logs

A mark is set when a diagnostic is recorded and stays until the log is reset. -/

/-- The diagnostics of a run, oldest first, with two marks that the reports have set. -/
structure Log where
  diagnostics : List Diagnostic := []
  /-- The program was rejected before it ran. -/
  hadError : Bool := false
  /-- The program failed while it ran. -/
  hadRuntimeError : Bool := false
deriving Inhabited

namespace Log

/-- The log without diagnostics and marks. -/
def empty : Log := {}

/-- Adds one diagnostic at the end and sets the mark that goes with it. -/
def report (log : Log) (d : Diagnostic) : Log :=
  let diagnostics := log.diagnostics ++ [d]
  if d.isRuntime then { log with diagnostics, hadRuntimeError := true }
  else { log with diagnostics, hadError := true }

/-- Reports under a stage that is given by name. Under a name of no stage nothing is recorded. -/
def reportAs (log : Log) (stage : String) (cause : Cause) (token? : Option Token) (line? : Option Int) :
    Option Diagnostic × Log :=
  match Stage.ofName? stage with
  | some stage =>
    let d := { stage, cause, token?, line? }
    (some d, log.report d)
  | none => (none, log)

/-- Adds diagnostics at the end, one after the other. -/
def append (log : Log) (ds : List Diagnostic) : Log :=
  ds.foldl report log

/-- The diagnostics of one stage. -/
def ofStage (log : Log) (stage : Stage) : List Diagnostic :=
  log.diagnostics.filter (·.stage = stage)

/-- The messages in order. -/
def messages (log : Log) : List String :=
  log.diagnostics.map (·.message)

end Log

end LoxLang
