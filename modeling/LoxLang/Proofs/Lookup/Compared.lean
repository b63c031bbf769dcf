import LoxLang.Proofs.Run.Watch

/-!
# Runs that compare each look-up with a search

The evaluator once more, with a second look at each variable that is read or assigned: a search through the frames of
the current environment must end in the very frame where the evaluator looks, and must fail where the evaluator
complains of an undefined variable. If it does not, the run stops with a fault, so a compared run that agrees with the
plain one has looked up everything where the search would have found it.
-/

namespace LoxLang

/-- The frame in which a reference is looked up: so many steps out, or the globals. -/
def Reference.frame? (m : Machine) (r : Reference Hops) : Option Address :=
  match r.note with
  | some distance => m.environment[distance]?
  | none => Environment.globals.head?

/-- A stop for a variable that is not defined. -/
def Stop.isUndefined : Stop → Bool
  | .error d =>
    match d.cause with
    | .undefinedVariable _ => true
    | _ => false
  | .fault _ | .tooDeep | .tooLong => false

/-- A run stops for a variable that is not defined. -/
def Eval.endsUndefined {α : Type} (act : Eval α) (m : Machine) : Bool :=
  match (act m).1 with
  | .ok _ => false
  | .error stop => stop.isUndefined

/-- A search through the current environment ends in the frame in which the reference is looked up, and the access
succeeds; or the search fails, and so does the access. -/
def Reference.agrees {α : Type} (r : Reference Hops) (access : Eval α) (m : Machine) : Bool :=
  match m.environment.holder? m.heap r.name.lexeme with
  | some a => r.frame? m == some a && !access.endsUndefined m
  | none => access.endsUndefined m

namespace Runner

/-- The value of a reference, which is compared. -/
def lookUpCompared (reference : Reference Hops) : Eval Value :=
  .ensuring (reference.agrees (lookUp reference)) (lookUp reference)

/-- Changes what a reference refers to, which is compared. -/
def assignCompared (target : Reference Hops) (v : Value) : Eval Unit :=
  .ensuring (target.agrees (assign target v)) (assign target v)

/-- The rules for expressions. -/
def evaluateCompared (settings : Settings) (run : Runner) : Expr Hops → Eval Value
  | .variable reference => lookUpCompared reference
  | .this keyword => lookUpCompared keyword
  | .assign target value => do
    let v ← run.evaluate value
    assignCompared target v
    return v
  | e => evaluateNode settings run e

/-- The rules for statements. A class reads the variable of its superclass first. -/
def executeCompared (settings : Settings) (run : Runner) : Stmt Hops → Eval Completion
  | .class name (some reference) methods =>
    .ensuring (reference.agrees (lookUp reference)) (executeNode settings run (.class name (some reference) methods))
  | s => executeNode settings run s

end Runner

mutual

/-- Evaluates an expression with at most `n` levels of nesting and compares. -/
def evaluateNestedCompared (settings : Settings) : Nat → Expr Hops → Eval Value
  | 0, _ => throw .tooDeep
  | n + 1, e =>
    Runner.evaluateCompared settings ⟨evaluateNestedCompared settings n, executeNestedCompared settings n⟩ e

/-- Executes a statement with at most `n` levels of nesting and compares. -/
def executeNestedCompared (settings : Settings) : Nat → Stmt Hops → Eval Completion
  | 0, _ => throw .tooDeep
  | n + 1, s =>
    Runner.executeCompared settings ⟨evaluateNestedCompared settings n, executeNestedCompared settings n⟩ s

end

/-- The runner that compares. -/
def Settings.comparer (settings : Settings) : Runner where
  evaluate := evaluateNestedCompared settings settings.nesting
  execute := executeNestedCompared settings settings.nesting

/-- Runs the statements of a program and compares. -/
def Machine.runCompared (settings : Settings) (program : List (Stmt Hops)) (m : Machine) : Option Stop × Machine :=
  match settings.comparer.executeAll program m with
  | (.ok _, m) => (none, m)
  | (.error stop, m) => (some stop, m)

end LoxLang
