import LoxLang.Run.Machine

/-!
# Functions, classes and instances at work

Calls take the run of a function's body as an argument, so that they can be stated before statements are.
-/

namespace LoxLang

/-- Runs the statements of a body in the current environment. -/
abbrev BodyRunner := List (Stmt Hops) → Eval Completion

namespace Closure

/-- A function declared in an environment. -/
def create (declaration : FunDecl Hops) (environment : Environment) (isInitializer : Bool) :
    Eval Closure :=
  return ⟨← Eval.alloc .identity, declaration, environment, isInitializer⟩

/-- The function with `this` bound to an instance, in a frame of its own. -/
def bind (f : Closure) (this : Value) : Eval Closure := do
  let frame ← Eval.alloc (.frame [("this", this)])
  create f.declaration (frame :: f.environment) f.isInitializer

/-- Runs the body in a new frame inside the environment of the declaration. Arguments beyond the parameters are
ignored, and a parameter without argument is not bound. An initializer gives its instance, whatever the body
does. -/
def call (body : BodyRunner) (f : Closure) (arguments : List Value) : Eval Value := do
  let vars := Bindings.ofLists (f.declaration.params.map (·.lexeme)) arguments
  let frame ← Eval.alloc (.frame vars)
  let completion ← Eval.within (frame :: f.environment) (body f.declaration.body)
  if f.isInitializer then
    Eval.readAt f.environment 0 "this"
  else
    match completion with
    | .returning v => return v
    | .completed => return .nil

end Closure

/-- A new instance, set up by the initializer if there is one. -/
def Class.instantiate (body : BodyRunner) (c : Class) (arguments : List Value) : Eval Value := do
  let instanceValue := Value.object ⟨← Eval.alloc (.fields []), c⟩
  if let some initializer := c.initializer? then
    let bound ← initializer.bind instanceValue
    -- what the initializer gives is the instance again
    let _ ← bound.call body arguments
  return instanceValue

namespace Instance

/-- A field, or else a method bound to the instance. -/
def get (i : Instance) (name : Token) : Eval Value := do
  match ((← MonadState.get).heap.fields i.address).get? name.lexeme with
  | some v => return v
  | none =>
    match i.origin.findMethod? name.lexeme with
    | some method => return .function (← method.bind (.object i))
    | none => Eval.fail (.undefinedProperty name.lexeme) name

/-- Changes or adds a field. -/
def set (i : Instance) (name : Token) (v : Value) : Eval Unit :=
  Eval.setField i.address name.lexeme v

end Instance

namespace Value

/-- The number of arguments that a value takes when it is called, if it can be. -/
def arity? : Value → Option Nat
  | function f => some f.arity
  | clock => some 0
  | classValue c => some c.arity
  | _ => none

/-- Calls a value without counting the arguments. -/
def call (settings : Settings) (body : BodyRunner) (arguments : List Value) : Value → Eval Value
  | function f => f.call body arguments
  | clock => Eval.readClock settings
  | classValue c => c.instantiate body arguments
  | _ => throw (.fault .absent)

end Value

end LoxLang
