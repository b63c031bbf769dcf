import LoxLang.Proofs.Run.Outcomes
import LoxLang.Proofs.Run.Watch
import Mathlib.Logic.Function.Basic

/-!
# Code at home

A second evaluator, by which `this` and `super` are understood. Every piece of code runs at a home, which says for
which instance it runs and which class the surrounding class extends.

* A class declaration gives its methods a home without an instance. The class in it is the one that the name of the
  superclass has been evaluated to.
* A method that is looked up for an instance gets a home at it: by `i.m`, by `super.m`, or as an initializer.
* A function that is declared is at home where its declaration is executed.
* A call runs the body at the home of the function, wherever the call stands.

Here `this` is the instance of the home, and `super.m` begins at the class of the home; no environment is asked. What
environments have to say is only compared: a `this` or `super` whose frames bind anything else is a fault.
-/

namespace LoxLang

/-- For which instance a piece of code runs, and which class the surrounding class extends. -/
structure Home where
  receiver? : Option Instance
  superclass? : Option Class
deriving Inhabited

/-- Outside of all classes. -/
def Home.outside : Home :=
  ⟨none, none⟩

/-- The homes of functions by their addresses. -/
abbrev Homes := Address → Home

/-- A machine with the homes of the functions that it has made. -/
abbrev Housing := Machine × Homes

/-- Runs in which functions have homes. -/
abbrev Homed (α : Type) := ExceptT Stop (StateM Housing) α

namespace Homed

variable {α β : Type}

theorem bind_apply (act : Homed α) (f : α → Homed β) (x : Housing) :
    (act >>= f) x = match act x with
      | (.ok a, x') => f a x'
      | (.error stop, x') => (.error stop, x') := by
  change (match act x with | (result, x') => ExceptT.bindCont f result x') = _
  rcases act x with ⟨_ | _, _⟩ <;> rfl

/-- A run that makes no functions. -/
def lift (act : Eval α) : Homed α := fun x =>
  let (result, m) := act x.1
  (result, m, x.2)

/-- The home of a function. -/
def homeOf (f : Closure) : Homed Home := fun x =>
  (.ok (x.2 f.address), x)

/-- Gives a function a home. -/
def settle (f : Closure) (home : Home) : Homed Unit := fun x =>
  (.ok (), x.1, Function.update x.2 f.address home)

/-- Runs in another environment. However the run ends, the old environment is back afterwards. -/
def within (env : Environment) (act : Homed α) : Homed α := fun x =>
  let (result, x') := act ({ x.1 with environment := env }, x.2)
  (result, { x'.1 with environment := x.1.environment }, x'.2)

/-- Runs; nesting too deep becomes a mistake of the program at a token. -/
def overflowAt (token : Token) (act : Homed α) : Homed α := fun x =>
  match act x with
  | (.error .tooDeep, x') => lift (Eval.fail .stackOverflow token) x'
  | other => other

/-- Runs if a check of the machine succeeds, and stops with a fault otherwise. -/
def ensuring (check : Machine → Bool) (act : Homed α) : Homed α := fun x =>
  if check x.1 then act x else (.error (.fault .absent), x)

/-- Goes round while the test holds, at most so many times, and stops at a return. -/
def repeatWhile (test : Homed Bool) (body : Homed Completion) : Nat → Homed Completion
  | 0 => throw .tooLong
  | rounds + 1 => do
    if ← test then
      match ← body with
      | .returning v => return .returning v
      | .completed => repeatWhile test body rounds
    else
      return .completed

end Homed

open Homed

/-! ### Homes

A home is noted for an address when a function is made there, and never changed. -/

namespace Home

/-- The instance for which the code runs. -/
def this (home : Home) : Homed Value :=
  match home.receiver? with
  | some i => return .object i
  | none => throw (.fault .unbound)

/-- A function that is declared here. -/
def create (home : Home) (declaration : FunDecl Hops) (env : Environment) (isInitializer : Bool) :
    Homed Closure := do
  let f ← lift (Closure.create declaration env isInitializer)
  settle f home
  return f

/-- A method for an instance. It keeps the class that its own class extends. -/
def bind (f : Closure) (i : Instance) : Homed Closure := do
  let home ← homeOf f
  let g ← lift (f.bind (.object i))
  settle g { home with receiver? := some i }
  return g

/-- The method that the class of a home has for a name, for the instance of the home. -/
def superMethod (home : Home) (method : Token) : Homed Value := do
  match home.superclass?, home.receiver? with
  | some c, some i =>
    match c.findMethod? method.lexeme with
    | some f => return .function (← bind f i)
    | none => lift (Eval.fail (.undefinedProperty method.lexeme) method)
  | _, _ => throw (.fault .unbound)

/-- A field of an instance, or else a method for it. -/
def property (i : Instance) (name : Token) : Homed Value := do
  match ((← lift get).heap.fields i.address).get? name.lexeme with
  | some v => return v
  | none =>
    match i.origin.findMethod? name.lexeme with
    | some method => return .function (← bind method i)
    | none => lift (Eval.fail (.undefinedProperty name.lexeme) name)

/-- The methods of a class; of two with one name the later one counts. -/
def createMethods (home : Home) (env : Environment) :
    List (FunDecl Hops) → Bindings Closure → Homed (Bindings Closure)
  | [], methods => return methods
  | d :: ds, methods => do
    let name := d.name.lexeme
    let f ← home.create d env (name == "init")
    createMethods home env ds (methods.put name f)

/-- Declares a class. Its methods are at home with the class that it extends, and not yet for an instance. -/
def declareClass (name : Token) (heritage : Option (Reference Hops)) (methods : List (FunDecl Hops)) :
    Homed Unit := do
  let parent ← lift (Runner.parentOf heritage)
  lift (Eval.declare name .nil)
  let env := (← lift get).environment
  let inner ← lift (Runner.methodScope env parent)
  let methods ← createMethods ⟨none, parent⟩ inner methods []
  lift (Runner.finishClass env name parent methods)

/-- The frames that a node notes for `this` and `super` bind the instance and the class of the home. -/
def confirms (home : Home) (m : Machine) : Expr Hops → Bool
  | .this keyword =>
    match keyword.note, home.receiver? with
    | some distance, some i => (m.find? distance "this").any (·.equals (.object i))
    | _, _ => false
  | .super keyword _ =>
    match keyword.note, home.superclass?, home.receiver? with
    | some (distance + 1), some c, some i =>
      (m.find? (distance + 1) "super").any (·.equals (.classValue c)) &&
        (m.find? distance "this").any (·.equals (.object i))
    | _, _, _ => false
  | _ => true

end Home

/-! ### The rules

They are the rules of the evaluator, with a check at `this` and at `super` that the home and the frames say the same. -/

/-- Evaluates expressions and executes statements at a home. -/
structure HomeRunner where
  evaluate : Home → Expr Hops → Homed Value
  execute : Home → Stmt Hops → Homed Completion

namespace HomeRunner

/-- The values of expressions from left to right. -/
def evaluateAll (run : HomeRunner) (home : Home) : List (Expr Hops) → Homed (List Value)
  | [] => return []
  | e :: es => do
    let v ← run.evaluate home e
    return v :: (← evaluateAll run home es)

/-- The value of an expression that may be missing. -/
def evaluateOption (run : HomeRunner) (home : Home) : Option (Expr Hops) → Homed Value
  | some e => run.evaluate home e
  | none => return .nil

/-- Executes statements until one returns. -/
def executeAll (run : HomeRunner) (home : Home) : List (Stmt Hops) → Homed Completion
  | [] => return .completed
  | s :: ss => do
    match ← run.execute home s with
    | .returning v => return .returning v
    | .completed => executeAll run home ss

/-- Runs the body of a function at its home. An initializer gives the instance of the home. -/
def activate (run : HomeRunner) (f : Closure) (arguments : List Value) : Homed Value := do
  let home ← homeOf f
  let vars := Bindings.ofLists (f.declaration.params.map (·.lexeme)) arguments
  let frame ← lift (Eval.alloc (.frame vars))
  let completion ← within (frame :: f.environment) (run.executeAll home f.declaration.body)
  if f.isInitializer then
    home.this
  else
    match completion with
    | .returning v => return v
    | .completed => return .nil

/-- A new instance, set up by the initializer if there is one. -/
def instantiate (run : HomeRunner) (c : Class) (arguments : List Value) : Homed Value := do
  let i : Instance := ⟨← lift (Eval.alloc (.fields [])), c⟩
  if let some initializer := c.initializer? then
    let bound ← Home.bind initializer i
    let _ ← run.activate bound arguments
  return .object i

/-- Calls a value without counting the arguments. -/
def callValue (settings : Settings) (run : HomeRunner) (arguments : List Value) : Value → Homed Value
  | .function f => run.activate f arguments
  | .clock => lift (Eval.readClock settings)
  | .classValue c => run.instantiate c arguments
  | _ => throw (.fault .absent)

/-- Calls a value: it must be callable and get as many arguments as it takes. -/
def call (settings : Settings) (run : HomeRunner) (paren : Token) (callee : Value) (arguments : List Value) :
    Homed Value :=
  match callee.arity? with
  | none => lift (Eval.fail .notCallable paren)
  | some arity =>
    if arguments.length = arity then
      overflowAt paren (run.callValue settings arguments callee)
    else
      lift (Eval.fail (.argumentCountMismatch (toString arity) (toString arguments.length)) paren)

/-- The rules for expressions. -/
def evaluateNode (settings : Settings) (run : HomeRunner) (home : Home) : Expr Hops → Homed Value
  | .assign target value => do
    let v ← run.evaluate home value
    lift (Runner.assign target v)
    return v
  | .binary left operator right => do
    let l ← run.evaluate home left
    let r ← run.evaluate home right
    lift (Eval.binary operator l r)
  | .call callee paren arguments => do
    let f ← run.evaluate home callee
    let vs ← run.evaluateAll home arguments
    run.call settings paren f vs
  | .get object name => do
    match ← run.evaluate home object with
    | .object i => Home.property i name
    | _ => lift (Eval.fail .onlyInstancesHaveProperties name)
  | .grouping inner => run.evaluate home inner
  | .literal value => return value.value
  | .logical left operator right => do
    let l ← run.evaluate home left
    if l.isTruthy = (operator.kind == .or) then
      return l
    else
      run.evaluate home right
  | .set object name value => do
    match ← run.evaluate home object with
    | .object i =>
      let v ← run.evaluate home value
      lift (i.set name v)
      return v
    | _ => lift (Eval.fail .onlyInstancesHaveFields name)
  | .super _ method => home.superMethod method
  | .this _ => home.this
  | .unary operator right => do
    let r ← run.evaluate home right
    lift (Eval.unary operator r)
  | .variable reference => lift (Runner.lookUp reference)
  | .unknown => throw (.fault (.noRule "Interpreter" .expression))

/-- The rules for statements. -/
def executeNode (settings : Settings) (run : HomeRunner) (home : Home) : Stmt Hops → Homed Completion
  | .block body => do
    let frame ← lift (Eval.alloc (.frame []))
    within (frame :: (← lift get).environment) (run.executeAll home body)
  | .expression value => do
    let _ ← run.evaluate home value
    return .completed
  | .function declaration => do
    let f ← home.create declaration (← lift get).environment false
    lift (Eval.declare declaration.name (.function f))
    return .completed
  | .class name heritage methods => do
    Home.declareClass name heritage methods
    return .completed
  | .if condition thenBranch elseBranch => do
    if (← run.evaluate home condition).isTruthy then
      run.execute home thenBranch
    else
      match elseBranch with
      | some s => run.execute home s
      | none => return .completed
  | .print value => do
    let v ← run.evaluate home value
    lift (Eval.print v.text)
    return .completed
  | .return _ value => return .returning (← run.evaluateOption home value)
  | .var name initializer => do
    let v ← run.evaluateOption home initializer
    lift (Eval.declare name v)
    return .completed
  | .while condition body =>
    repeatWhile (Value.isTruthy <$> run.evaluate home condition) (run.execute home body) settings.rounds
  | .unknown => throw (.fault (.noRule "Interpreter" .statement))

end HomeRunner

mutual

/-- Evaluates an expression at a home with at most `n` levels of nesting. -/
def evaluateAtHome (settings : Settings) : Nat → Home → Expr Hops → Homed Value
  | 0, _, _ => throw .tooDeep
  | n + 1, home, e =>
    ensuring (fun m => home.confirms m e)
      (HomeRunner.evaluateNode settings ⟨evaluateAtHome settings n, executeAtHome settings n⟩ home e)

/-- Executes a statement at a home with at most `n` levels of nesting. -/
def executeAtHome (settings : Settings) : Nat → Home → Stmt Hops → Homed Completion
  | 0, _, _ => throw .tooDeep
  | n + 1, home, s =>
    HomeRunner.executeNode settings ⟨evaluateAtHome settings n, executeAtHome settings n⟩ home s

end

/-- The runner for whole programs at home. -/
def Settings.homeRunner (settings : Settings) : HomeRunner where
  evaluate := evaluateAtHome settings settings.nesting
  execute := executeAtHome settings settings.nesting

/-- A machine that has run nothing has made no functions. -/
def Housing.initial : Housing :=
  (.initial, fun _ => .outside)

/-- Runs the statements of a program outside of all classes. What is left is the reason for a stop, if the run did not
come to its end, and the machine with the homes of its functions. -/
def Housing.run (settings : Settings) (program : List (Stmt Hops)) (x : Housing) : Option Stop × Housing :=
  match settings.homeRunner.executeAll .outside program x with
  | (.ok _, x') => (none, x')
  | (.error stop, x') => (some stop, x')

end LoxLang
