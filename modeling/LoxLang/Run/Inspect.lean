import LoxLang.Run.Evaluate
import LoxLang.Text.Quoted

/-!
# Inspection

Questions to the objects that the globals of a machine hold, and to single frames. They go past the checks that
a program meets: a call does not count its arguments.
-/

namespace LoxLang

/-- A value given as such or as the global that holds it. -/
inductive Operand where
  | value (v : Value)
  | global (name : String)

/-- What is asked of an object. -/
inductive Question where
  | value
  | arity
  | findMethod (name : String)
  | call (arguments : List Operand)
  | bind (this : String)
  | get (name : Token)
  | set (name : Token) (v : Operand)
  | same (other : Operand)

/-- What is answered. -/
inductive Answer where
  | value (v : Value)
  | count (n : Nat)
  | flag (b : Bool)

/-- An answer as a value of the language; a count of parameters is none. -/
def Answer.value? : Answer → Option Value
  | value v => some v
  | flag b => some (.bool b)
  | count _ => none

namespace Eval

/-- The value of a global, which must exist. -/
def global (name : String) : Eval Value :=
  readAt .globals 0 name

/-- The value of an operand. -/
def operand : Operand → Eval Value
  | .value v => return v
  | .global name => global name

/-- The values of operands from left to right. -/
def operands : List Operand → Eval (List Value)
  | [] => return []
  | o :: os => do
    let v ← operand o
    return v :: (← operands os)

/-- What was asked for does not exist. -/
def absent {α : Type} : Eval α :=
  throw (.fault .absent)

/-- Answers a question about a value. Whether the question makes sense for the value is looked at before the
operands are. -/
def answer (settings : Settings) (target : Value) : Question → Eval Answer
  | .value => return .value target
  | .arity => do
    match target.arity? with
    | some n => return .count n
    | none => absent
  | .findMethod name => do
    match target with
    | .classValue c => return .value ((c.findMethod? name).elim .nil .function)
    | _ => absent
  | .call arguments => do
    if target.arity?.isNone then
      absent
    let vs ← operands arguments
    return .value (← target.call settings settings.runner.executeAll vs)
  | .bind this => do
    match target with
    | .function f =>
      let v ← global this
      return .value (.function (← f.bind v))
    | _ => absent
  | .get name => do
    match target with
    | .object i => return .value (← i.get name)
    | _ => absent
  | .set name operandValue => do
    match target with
    | .object i =>
      let v ← operand operandValue
      i.set name v
      return .value target
    | _ => absent
  | .same other => return .flag (target.equals (← operand other))

/-- Asks the object that a global holds. The answer is stored in a global if one is named. -/
def ask (settings : Settings) (name : String) (question : Question) (store? : Option String) :
    Eval Answer := do
  let reply ← answer settings (← global name) question
  if let (some global, some v) := (store?, reply.value?) then
    define 0 global v
  return reply

end Eval

/-! ### Frames

Environments can be shown by the names in them. -/

/-- A new frame inside an environment. -/
def Environment.extend (outer : Environment) : Eval Environment :=
  return (← Eval.alloc (.frame [])) :: outer

/-- The names of the innermost frame and whether another frame encloses it. -/
def Environment.display (env : Environment) (h : Heap) : String :=
  let names := env.head?.elim [] fun a => (h.vars a).map (·.1)
  let enclosed := if env.length ≤ 1 then "False" else "True"
  "Environment(" ++ Quoted.list names ++ ", enclosing=" ++ enclosed ++ ")"

/-! ### Single nodes

A node of a tree can be run without the program around it. -/

/-- What became of a node: a value if it is an expression, else the way the statement ended. -/
inductive NodeResult where
  | value (v : Value)
  | completion (c : Completion)

/-- Evaluates or executes a node, whether it was resolved or not. -/
def Eval.node (settings : Settings) : Node Hops → Eval NodeResult
  | .expr e => .value <$> settings.runner.evaluate e
  | .stmt s => .completion <$> settings.runner.execute s

end LoxLang
