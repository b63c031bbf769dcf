import LoxLang.Run.Evaluate

/-!
# Running on cells

A second semantics, by which programs are understood: every execution of a local declaration and every parameter
gets a fresh cell, functions capture the cells that are visible where they are declared, and a name stands for the
first cell of that name that is visible, or else for the global of that name. It takes no notice of distances.

A cell is a frame that binds one name. An environment lists the visible cells, latest first, and ends with the
globals; a declaration extends it. What has nothing to do with names is as in the evaluator.
-/

namespace LoxLang

namespace Cells

/-! ### Names

A name is found by its spelling in the static environment of the code, which lists cells; what has been declared since
cannot get in between. -/

/-- Declares a name without a value. A local name gets a fresh cell; other names are those of globals. -/
def introduce (isLocal : Bool) (name : Token) : Eval Address :=
  if isLocal then do
    let cell ← Eval.alloc (.frame [(name.lexeme, .nil)])
    modify fun m => { m with environment := cell :: m.environment }
    return cell
  else do
    Eval.define 0 name.lexeme .nil
    return 0

/-- Fresh cells for parameters, in front of an environment. -/
def bindAll : List Token → List Value → Environment → Eval Environment
  | p :: ps, v :: vs, env => do
    let cell ← Eval.alloc (.frame [(p.lexeme, v)])
    bindAll ps vs (cell :: env)
  | _, _, env => return env

/-- The value of `this` or `super` in an environment. -/
def valueOf (env : Environment) (word : String) : Eval Value := do
  match env.get? (← get).heap word with
  | some v => return v
  | none => throw (.fault .unbound)

/-! ### Calls

A call adds the cells of its parameters to the environment that the function was made in. -/

/-- Runs the body of a function with its parameters in fresh cells. -/
def call (body : BodyRunner) (f : Closure) (arguments : List Value) : Eval Value := do
  let env ← bindAll f.declaration.params arguments f.environment
  let completion ← Eval.within env (body f.declaration.body)
  if f.isInitializer then
    valueOf f.environment "this"
  else
    match completion with
    | .returning v => return v
    | .completed => return .nil

/-- A new instance, set up by the initializer if there is one. -/
def instantiate (body : BodyRunner) (c : Class) (arguments : List Value) : Eval Value := do
  let instanceValue := Value.object ⟨← Eval.alloc (.fields []), c⟩
  if let some initializer := c.initializer? then
    let bound ← initializer.bind instanceValue
    let _ ← call body bound arguments
  return instanceValue

/-- Calls a value without counting the arguments. -/
def callValue (settings : Settings) (body : BodyRunner) (arguments : List Value) : Value → Eval Value
  | .function f => call body f arguments
  | .clock => Eval.readClock settings
  | .classValue c => instantiate body c arguments
  | _ => throw (.fault .absent)

/-- Calls a value: it must be callable and get as many arguments as it takes. -/
def checkedCall (settings : Settings) (run : Runner) (paren : Token) (callee : Value)
    (arguments : List Value) : Eval Value :=
  match callee.arity? with
  | none => Eval.fail .notCallable paren
  | some arity =>
    if arguments.length = arity then
      Eval.overflowAt paren (callValue settings run.executeAll arguments callee)
    else
      Eval.fail (.argumentCountMismatch (toString arity) (toString arguments.length)) paren

/-! ### Expressions

The rules differ from those for frames in how names, `this` and `super` are found, and in what a call does with its
parameters. -/

/-- The method that the visible superclass has for a name, bound to the visible `this`. -/
def superMethod (method : Token) : Eval Value := do
  let env := (← get).environment
  let superclass ← valueOf env "super"
  let this ← valueOf env "this"
  match superclass with
  | .classValue c =>
    match c.findMethod? method.lexeme with
    | some f => return .function (← f.bind this)
    | none => Eval.fail (.undefinedProperty method.lexeme) method
  | _ => throw (.fault .absent)

/-- The rules for expressions. -/
def evaluateNode (settings : Settings) (run : Runner) : Expr Hops → Eval Value
  | .assign target value => do
    let v ← run.evaluate value
    Eval.assign (← get).environment target.name v
    return v
  | .call callee paren arguments => do
    let f ← run.evaluate callee
    let vs ← run.evaluateAll arguments
    checkedCall settings run paren f vs
  | .super _ method => superMethod method
  | .this keyword => do Eval.read (← get).environment keyword.name
  | .variable reference => do Eval.read (← get).environment reference.name
  | e => run.evaluateNode settings e

/-! ### Statements

A declaration gives a new environment for the statements behind it. -/

/-- The class that a reference evaluates to. -/
def superclass (reference : Reference Hops) : Eval Class := do
  match ← Eval.read (← get).environment reference.name with
  | .classValue c => return c
  | _ => Eval.fail .superclassMustBeClass reference.name

/-- Declares a class. The methods of a subclass see a cell for `super`. -/
def declareClass (isLocal : Bool) (name : Token) (heritage : Option (Reference Hops))
    (methods : List (FunDecl Hops)) : Eval Unit := do
  let parent ←
    match heritage with
    | some reference => some <$> superclass reference
    | none => pure none
  let _ ← introduce isLocal name
  let env := (← get).environment
  let inner ←
    match parent with
    | some c => (· :: env) <$> Eval.alloc (.frame [("super", .classValue c)])
    | none => pure env
  let methods ← Runner.createMethods inner methods []
  let own : ClassLayer := ⟨← Eval.alloc .identity, name.lexeme, methods⟩
  let inherited := parent.elim [] fun c => c.own :: c.inherited
  Eval.assign env name (.classValue ⟨own, inherited⟩)

/-- The rules for statements. There is a runner for statements of local scopes and one for others. -/
def executeNode (settings : Settings) (run : Bool → Runner) (isLocal : Bool) : Stmt Hops → Eval Completion
  | .block body => do Eval.within (← get).environment ((run true).executeAll body)
  | .function declaration => do
    let cell ← introduce isLocal declaration.name
    let f ← Closure.create declaration (← get).environment false
    Eval.define cell declaration.name.lexeme (.function f)
    return .completed
  | .class name heritage methods => do
    declareClass isLocal name heritage methods
    return .completed
  | .var name initializer => do
    let v ← (run isLocal).evaluateOption initializer
    let cell ← introduce isLocal name
    Eval.define cell name.lexeme v
    return .completed
  | s => (run isLocal).executeNode settings s

/-! ### Nesting

The knot is tied as for frames, with the same bound. -/

mutual

/-- Evaluates an expression with at most `n` levels of nesting. -/
def evaluate (settings : Settings) : Nat → Expr Hops → Eval Value
  | 0, _ => throw .tooDeep
  | n + 1, e => evaluateNode settings ⟨evaluate settings n, execute settings n true⟩ e

/-- Executes a statement with at most `n` levels of nesting. -/
def execute (settings : Settings) : Nat → Bool → Stmt Hops → Eval Completion
  | 0, _, _ => throw .tooDeep
  | n + 1, isLocal, s =>
    executeNode settings (fun isLocal => ⟨evaluate settings n, execute settings n isLocal⟩) isLocal s

end

/-- The runner for whole programs, which stand in no local scope. -/
def runner (settings : Settings) : Runner where
  evaluate := evaluate settings settings.nesting
  execute := execute settings settings.nesting false

end Cells

/-- Runs the statements of a program on cells. -/
def Machine.runOnCells (settings : Settings) (program : List (Stmt Hops)) (m : Machine) :
    Option Stop × Machine :=
  match (Cells.runner settings).executeAll program m with
  | (.ok _, m) => (none, m)
  | (.error stop, m) => (some stop, m)

end LoxLang
