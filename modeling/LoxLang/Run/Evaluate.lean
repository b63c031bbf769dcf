import LoxLang.Run.Object
import LoxLang.Run.Operator

/-!
# Evaluation

The rules for expressions and statements. Each rule evaluates the parts of its node through a `Runner`; tying
the rules together one level of nesting at a time gives evaluators for any depth.
-/

namespace LoxLang

/-- Evaluates expressions and executes statements. -/
structure Runner where
  evaluate : Expr Hops → Eval Value
  execute : Stmt Hops → Eval Completion

namespace Runner

/-! ### Expressions

Operands are evaluated from left to right, and an operator looks at its operands when it has all of them. What is
checked before an argument or a value is evaluated can be told from the side effects of the latter. -/

/-- The value of a reference: in its frame if it was resolved, else among the globals. -/
def lookUp (reference : Reference Hops) : Eval Value := do
  match reference.note with
  | some distance => Eval.readAt (← get).environment distance reference.name.lexeme
  | none => Eval.read .globals reference.name

/-- Changes what a reference refers to. -/
def assign (target : Reference Hops) (v : Value) : Eval Unit := do
  match target.note with
  | some distance => Eval.assignAt (← get).environment distance target.name.lexeme v
  | none => Eval.assign .globals target.name v

/-- The values of expressions from left to right. -/
def evaluateAll (run : Runner) : List (Expr Hops) → Eval (List Value)
  | [] => return []
  | e :: es => do
    let v ← run.evaluate e
    return v :: (← evaluateAll run es)

/-- Executes statements until one returns. -/
def executeAll (run : Runner) : List (Stmt Hops) → Eval Completion
  | [] => return .completed
  | s :: ss => do
    match ← run.execute s with
    | .returning v => return .returning v
    | .completed => executeAll run ss

/-- Calls a value: it must be callable and get as many arguments as it takes. -/
def call (settings : Settings) (run : Runner) (paren : Token) (callee : Value) (arguments : List Value) :
    Eval Value :=
  match callee.arity? with
  | none => Eval.fail .notCallable paren
  | some arity =>
    if arguments.length = arity then
      Eval.overflowAt paren (callee.call settings run.executeAll arguments)
    else
      Eval.fail (.argumentCountMismatch (toString arity) (toString arguments.length)) paren

/-- The method that the superclass of the surrounding class has for a name, bound to `this`. The frame that
binds `this` lies just inside the one that binds `super`. -/
def superMethod (keyword : Reference Hops) (method : Token) : Eval Value := do
  match keyword.note with
  | none => throw (.fault .unbound)
  | some distance =>
    let env := (← get).environment
    let superclass ← Eval.readAt env distance "super"
    let this ← Eval.readAt env (distance - 1) "this"
    match superclass with
    | .classValue c =>
      match c.findMethod? method.lexeme with
      | some f => return .function (← f.bind this)
      | none => Eval.fail (.undefinedProperty method.lexeme) method
    | _ => throw (.fault .absent)

/-- The rules for expressions. -/
def evaluateNode (settings : Settings) (run : Runner) : Expr Hops → Eval Value
  | .assign target value => do
    let v ← run.evaluate value
    assign target v
    return v
  | .binary left operator right => do
    let l ← run.evaluate left
    let r ← run.evaluate right
    Eval.binary operator l r
  | .call callee paren arguments => do
    let f ← run.evaluate callee
    let vs ← run.evaluateAll arguments
    run.call settings paren f vs
  | .get object name => do
    match ← run.evaluate object with
    | .object i => i.get name
    | _ => Eval.fail .onlyInstancesHaveProperties name
  | .grouping inner => run.evaluate inner
  | .literal value => return value.value
  | .logical left operator right => do
    let l ← run.evaluate left
    if l.isTruthy = (operator.kind == .or) then
      return l
    else
      run.evaluate right
  | .set object name value => do
    -- the object is looked at before the value is evaluated
    match ← run.evaluate object with
    | .object i =>
      let v ← run.evaluate value
      i.set name v
      return v
    | _ => Eval.fail .onlyInstancesHaveFields name
  | .super keyword method => superMethod keyword method
  | .this keyword => lookUp keyword
  | .unary operator right => do
    let r ← run.evaluate right
    Eval.unary operator r
  | .variable reference => lookUp reference
  | .unknown => throw (.fault (.noRule "Interpreter" .expression))

/-! ### Statements

A statement ends with a completion, and a `return` inside of it is handed on as one. Only a block changes the
environment, and gives the old one back. -/

/-- The value of an expression that may be missing. -/
def evaluateOption (run : Runner) : Option (Expr Hops) → Eval Value
  | some e => run.evaluate e
  | none => return .nil

/-- Goes round while the test holds, at most so many times, and stops at a return. -/
def repeatWhile (test : Eval Bool) (body : Eval Completion) : Nat → Eval Completion
  | 0 => throw .tooLong
  | rounds + 1 => do
    if ← test then
      match ← body with
      | .returning v => return .returning v
      | .completed => repeatWhile test body rounds
    else
      return .completed

/-- The class that a reference evaluates to. -/
def superclass (reference : Reference Hops) : Eval Class := do
  match ← lookUp reference with
  | .classValue c => return c
  | _ => Eval.fail .superclassMustBeClass reference.name

/-- The methods of a class; of two with one name the later one counts. -/
def createMethods (env : Environment) : List (FunDecl Hops) → Bindings Closure → Eval (Bindings Closure)
  | [], methods => return methods
  | d :: ds, methods => do
    let name := d.name.lexeme
    -- a method is an initializer by its name alone
    let f ← Closure.create d env (name == "init")
    createMethods env ds (methods.put name f)

/-- Declares a class. Its name is bound before its methods are made, and the methods of a subclass see a frame
that binds `super`. -/
def declareClass (name : Token) (heritage : Option (Reference Hops)) (methods : List (FunDecl Hops)) :
    Eval Unit := do
  let parent ←
    match heritage with
    | some reference => some <$> superclass reference
    | none => pure none
  Eval.declare name .nil
  let env := (← get).environment
  let inner ←
    match parent with
    | some c => (· :: env) <$> Eval.alloc (.frame [("super", .classValue c)])
    | none => pure env
  let methods ← createMethods inner methods []
  let own : ClassLayer := ⟨← Eval.alloc .identity, name.lexeme, methods⟩
  let inherited := parent.elim [] fun c => c.own :: c.inherited
  Eval.assign env name (.classValue ⟨own, inherited⟩)

/-- The rules for statements. -/
def executeNode (settings : Settings) (run : Runner) : Stmt Hops → Eval Completion
  | .block body => do
    let frame ← Eval.alloc (.frame [])
    Eval.within (frame :: (← get).environment) (run.executeAll body)
  | .expression value => do
    let _ ← run.evaluate value
    return .completed
  | .function declaration => do
    let f ← Closure.create declaration (← get).environment false
    Eval.declare declaration.name (.function f)
    return .completed
  | .class name heritage methods => do
    declareClass name heritage methods
    return .completed
  | .if condition thenBranch elseBranch => do
    if (← run.evaluate condition).isTruthy then
      run.execute thenBranch
    else
      match elseBranch with
      | some s => run.execute s
      | none => return .completed
  | .print value => do
    let v ← run.evaluate value
    Eval.print v.text
    return .completed
  | .return _ value => return .returning (← run.evaluateOption value)
  | .var name initializer => do
    let v ← run.evaluateOption initializer
    Eval.declare name v
    return .completed
  | .while condition body =>
    repeatWhile (Value.isTruthy <$> run.evaluate condition) (run.execute body) settings.rounds
  | .unknown => throw (.fault (.noRule "Interpreter" .statement))

end Runner

/-! ### Nesting

The bound on the nesting stands for the stack of the process. Running out of it is a way to stop like others, which a
call turns into a mistake of the program. -/

mutual

/-- Evaluates an expression with at most `n` levels of nesting. -/
def evaluateNested (settings : Settings) : Nat → Expr Hops → Eval Value
  | 0, _ => throw .tooDeep
  | n + 1, e => Runner.evaluateNode settings ⟨evaluateNested settings n, executeNested settings n⟩ e

/-- Executes a statement with at most `n` levels of nesting. -/
def executeNested (settings : Settings) : Nat → Stmt Hops → Eval Completion
  | 0, _ => throw .tooDeep
  | n + 1, s => Runner.executeNode settings ⟨evaluateNested settings n, executeNested settings n⟩ s

end

/-- The runner for whole programs. -/
def Settings.runner (settings : Settings) : Runner where
  evaluate := evaluateNested settings settings.nesting
  execute := executeNested settings settings.nesting

/-- Runs the statements of a program; a return ends them. What is left is the reason for a stop, if the run did
not come to its end, and the machine. -/
def Machine.run (settings : Settings) (program : List (Stmt Hops)) (m : Machine) :
    Option Stop × Machine :=
  match settings.runner.executeAll program m with
  | (.ok _, m) => (none, m)
  | (.error stop, m) => (some stop, m)

end LoxLang
