import LoxLang.Diagnostic
import LoxLang.Heap

/-!
# Machines

A machine is the state of a run: the heap, the current environment, what has been printed and how often the
clock has been read. A run of a piece of program ends with a result or stops, and leaves a machine either way.
-/

namespace LoxLang

/-- The state of a run. -/
structure Machine where
  heap : Heap
  environment : Environment
  /-- The printed texts, each of which ends a line. -/
  printed : Array String
  /-- How often the clock has been read. -/
  readings : Nat
deriving Inhabited

/-- A machine that has run nothing. The globals lie at the first address and bind the clock. -/
def Machine.initial : Machine where
  heap := ⟨#[.frame [("clock", .clock)]]⟩
  environment := .globals
  printed := #[]
  readings := 0

/-- The variables of the outermost frame. -/
def Machine.globals (m : Machine) : Bindings Value :=
  m.heap.vars 0

/-- What is fixed during a run: how deeply evaluation may be nested, how often a single loop may go round, and
what the clock shows at each reading. -/
structure Settings where
  nesting : Nat
  rounds : Nat
  clock : Nat → Float

/-- Why a run stops without a result. -/
inductive Stop where
  /-- A mistake of the program, which is reported. -/
  | error (d : Diagnostic)
  | fault (f : Fault)
  /-- Evaluation was nested too deeply. -/
  | tooDeep
  /-- A loop went round too often. -/
  | tooLong
deriving Inhabited

/-- How a statement ends that does not stop. -/
inductive Completion where
  | completed
  /-- A `return` is on its way to the call it ends. -/
  | returning (v : Value)
deriving Inhabited

/-- Runs that give a result of type `α`. -/
abbrev Eval (α : Type) := ExceptT Stop (StateM Machine) α

namespace Eval

variable {α β : Type}

theorem bind_apply (act : Eval α) (f : α → Eval β) (m : Machine) :
    (act >>= f) m = match act m with
      | (.ok a, m') => f a m'
      | (.error stop, m') => (.error stop, m') := by
  change (match act m with | (result, m') => ExceptT.bindCont f result m') = _
  rcases act m with ⟨_ | _, _⟩ <;> rfl

theorem get_bind (f : Machine → Eval α) (m : Machine) : (get >>= f) m = f m m := rfl

/-- Stops with a mistake of the program at a token. -/
def fail (cause : Cause) (token : Token) : Eval α :=
  throw (.error (.ofToken .runtime cause token))

/-- Stops with a fault, or goes on with a value. -/
def ofExcept : Except Fault α → Eval α
  | .ok a => pure a
  | .error f => throw (.fault f)

/-- Allocates a cell. -/
def alloc (c : Cell) : Eval Address :=
  modifyGet fun m =>
    let (a, heap) := m.heap.alloc c
    (a, { m with heap })

/-- Binds a name in a frame. -/
def define (a : Address) (name : String) (v : Value) : Eval Unit :=
  modify fun m => { m with heap := m.heap.define a name v }

/-- Binds a field of an instance. -/
def setField (a : Address) (name : String) (v : Value) : Eval Unit :=
  modify fun m => { m with heap := m.heap.setField a name v }

/-- Prints a line. -/
def print (text : String) : Eval Unit :=
  modify fun m => { m with printed := m.printed.push text }

/-- Reads the clock. -/
def readClock (settings : Settings) : Eval Value :=
  modifyGet fun m => (.number (settings.clock m.readings), { m with readings := m.readings + 1 })

/-- Runs in another environment. However the run ends, the old environment is back afterwards. -/
def within (env : Environment) (act : Eval α) : Eval α := fun m =>
  let old := m.environment
  let (result, m) := act { m with environment := env }
  (result, { m with environment := old })

/-- Runs; nesting too deep becomes a mistake of the program at a token. -/
def overflowAt (token : Token) (act : Eval α) : Eval α := fun m =>
  match act m with
  | (.error .tooDeep, m) => fail .stackOverflow token m
  | other => other

/-! ### Variables

The operations with a distance are those for references that have been resolved to a frame. -/

/-- The value of a name, searched from an environment outwards. -/
def read (env : Environment) (name : Token) : Eval Value := do
  match env.get? (← get).heap name.lexeme with
  | some v => return v
  | none => fail (.undefinedVariable name.lexeme) name

/-- Changes a name, searched from an environment outwards. -/
def assign (env : Environment) (name : Token) (v : Value) : Eval Unit := do
  match env.holder? (← get).heap name.lexeme with
  | some a => define a name.lexeme v
  | none => fail (.undefinedVariable name.lexeme) name

/-- The value of a name in the frame some steps out. -/
def readAt (env : Environment) (distance : Nat) (name : String) : Eval Value := do
  ofExcept (env.getAt (← get).heap distance name)

/-- Binds a name in the frame some steps out. -/
def assignAt (env : Environment) (distance : Nat) (name : String) (v : Value) : Eval Unit := do
  define (← ofExcept (env.frameAt distance)) name v

/-- Binds a name in the innermost frame of the current environment. -/
def declare (name : Token) (v : Value) : Eval Unit := do
  match (← get).environment with
  | a :: _ => define a name.lexeme v
  | [] => pure ()

end Eval

end LoxLang
