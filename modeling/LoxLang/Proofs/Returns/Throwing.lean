import LoxLang.Run.Evaluate

/-!
# Returns that are thrown

A second evaluator, by which `return` is understood: a `return` throws its value out of whatever it stands in, and the
nearest call that is being executed catches it. No statement hands anything on, and none looks for a return: blocks,
branches and loops are left by the throw. A body that comes to its end gives `nil`.

What has nothing to do with returns is as in the evaluator.
-/

namespace LoxLang

/-- What ends a statement early. -/
inductive Escape where
  /-- A `return` with its keyword has thrown a value. -/
  | returned (keyword : Token) (v : Value)
  | stopped (stop : Stop)
deriving Inhabited

/-- Runs out of which a `return` may throw. -/
abbrev Throwing (α : Type) := ExceptT Escape (StateM Machine) α

namespace Throwing

variable {α β : Type}

theorem bind_apply (act : Throwing α) (f : α → Throwing β) (m : Machine) :
    (act >>= f) m = match act m with
      | (.ok a, m') => f a m'
      | (.error escape, m') => (.error escape, m') := by
  change (match act m with | (result, m') => ExceptT.bindCont f result m') = _
  rcases act m with ⟨_ | _, _⟩ <;> rfl

/-- A run out of which nothing is thrown. -/
def lift (act : Eval α) : Throwing α := fun m =>
  match act m with
  | (.ok a, m') => (.ok a, m')
  | (.error stop, m') => (.error (.stopped stop), m')

/-- Runs in another environment. However the run ends, the old environment is back afterwards. -/
def within (env : Environment) (act : Throwing α) : Throwing α := fun m =>
  let old := m.environment
  let (result, m) := act { m with environment := env }
  (result, { m with environment := old })

/-- Catches the value that is thrown out of a run. A run that comes to its end gives `nil`. -/
def catching (act : Throwing Unit) : Eval Value := fun m =>
  match act m with
  | (.ok (), m') => (.ok .nil, m')
  | (.error (.returned _ v), m') => (.ok v, m')
  | (.error (.stopped stop), m') => (.error stop, m')

/-- Goes round while the test holds, at most so many times. -/
def loop (test : Eval Bool) (body : Throwing Unit) : Nat → Throwing Unit
  | 0 => throw (.stopped .tooLong)
  | rounds + 1 => do
    if ← lift test then
      body
      loop test body rounds

end Throwing

open Throwing

/-- Evaluates expressions and executes statements. Nothing is thrown out of an expression. -/
structure Thrower where
  evaluate : Expr Hops → Eval Value
  execute : Stmt Hops → Throwing Unit

namespace Thrower

/-- The runner for expressions that are no calls, which execute no statements. -/
def expressions (run : Thrower) : Runner where
  evaluate := run.evaluate
  execute _ := throw (.fault .absent)

/-- Executes statements one after the other. -/
def executeAll (run : Thrower) : List (Stmt Hops) → Throwing Unit
  | [] => return ()
  | s :: ss => do
    run.execute s
    executeAll run ss

/-! ### Calls

A call is the only place where a thrown return is caught. -/

/-- Runs the body of a function in a new frame and catches what it throws. An initializer gives its instance. -/
def activate (run : Thrower) (f : Closure) (arguments : List Value) : Eval Value := do
  let vars := Bindings.ofLists (f.declaration.params.map (·.lexeme)) arguments
  let frame ← Eval.alloc (.frame vars)
  let v ← catching (within (frame :: f.environment) (run.executeAll f.declaration.body))
  if f.isInitializer then
    Eval.readAt f.environment 0 "this"
  else
    return v

/-- A new instance, set up by the initializer if there is one. -/
def instantiate (run : Thrower) (c : Class) (arguments : List Value) : Eval Value := do
  let instanceValue := Value.object ⟨← Eval.alloc (.fields []), c⟩
  if let some initializer := c.initializer? then
    let bound ← initializer.bind instanceValue
    let _ ← run.activate bound arguments
  return instanceValue

/-- Calls a value without counting the arguments. -/
def callValue (settings : Settings) (run : Thrower) (arguments : List Value) : Value → Eval Value
  | .function f => run.activate f arguments
  | .clock => Eval.readClock settings
  | .classValue c => run.instantiate c arguments
  | _ => throw (.fault .absent)

/-- Calls a value: it must be callable and get as many arguments as it takes. -/
def call (settings : Settings) (run : Thrower) (paren : Token) (callee : Value) (arguments : List Value) :
    Eval Value :=
  match callee.arity? with
  | none => Eval.fail .notCallable paren
  | some arity =>
    if arguments.length = arity then
      Eval.overflowAt paren (run.callValue settings arguments callee)
    else
      Eval.fail (.argumentCountMismatch (toString arity) (toString arguments.length)) paren

/-! ### The rules

They are the rules of the evaluator, but that nothing is handed on. -/

/-- The rules for expressions. -/
def evaluateNode (settings : Settings) (run : Thrower) : Expr Hops → Eval Value
  | .call callee paren arguments => do
    let f ← run.evaluate callee
    let vs ← run.expressions.evaluateAll arguments
    run.call settings paren f vs
  | e => run.expressions.evaluateNode settings e

/-- The rules for statements. -/
def executeNode (settings : Settings) (run : Thrower) : Stmt Hops → Throwing Unit
  | .block body => do
    let frame ← lift (Eval.alloc (.frame []))
    within (frame :: (← get).environment) (run.executeAll body)
  | .expression value => do
    let _ ← lift (run.evaluate value)
  | .function declaration => do
    let f ← lift (Closure.create declaration (← get).environment false)
    lift (Eval.declare declaration.name (.function f))
  | .class name heritage methods => lift (Runner.declareClass name heritage methods)
  | .if condition thenBranch elseBranch => do
    if (← lift (run.evaluate condition)).isTruthy then
      run.execute thenBranch
    else
      match elseBranch with
      | some s => run.execute s
      | none => return ()
  | .print value => do
    let v ← lift (run.evaluate value)
    lift (Eval.print v.text)
  | .return keyword value => do
    throw (.returned keyword (← lift (run.expressions.evaluateOption value)))
  | .var name initializer => do
    let v ← lift (run.expressions.evaluateOption initializer)
    lift (Eval.declare name v)
  | .while condition body =>
    loop (Value.isTruthy <$> run.evaluate condition) (run.execute body) settings.rounds
  | .unknown => throw (.stopped (.fault (.noRule "Interpreter" .statement)))

end Thrower

mutual

/-- Evaluates an expression with at most `n` levels of nesting; returns are thrown. -/
def evaluateThrowing (settings : Settings) : Nat → Expr Hops → Eval Value
  | 0, _ => throw .tooDeep
  | n + 1, e => Thrower.evaluateNode settings ⟨evaluateThrowing settings n, executeThrowing settings n⟩ e

/-- Executes a statement with at most `n` levels of nesting; returns are thrown. -/
def executeThrowing (settings : Settings) : Nat → Stmt Hops → Throwing Unit
  | 0, _ => throw (.stopped .tooDeep)
  | n + 1, s => Thrower.executeNode settings ⟨evaluateThrowing settings n, executeThrowing settings n⟩ s

end

/-- The thrower for whole programs. -/
def Settings.thrower (settings : Settings) : Thrower where
  evaluate := evaluateThrowing settings settings.nesting
  execute := executeThrowing settings settings.nesting

/-- Runs the statements of a program. What is left is what has escaped from them, if the run did not come to its end,
and the machine. -/
def Machine.runThrowing (settings : Settings) (program : List (Stmt Hops)) (m : Machine) :
    Option Escape × Machine :=
  match settings.thrower.executeAll program m with
  | (.ok _, m) => (none, m)
  | (.error escape, m) => (some escape, m)

end LoxLang
