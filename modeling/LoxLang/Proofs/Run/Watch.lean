import LoxLang.Run.Evaluate

/-!
# Runs under watch

The evaluator once more, with a look at the frames before each node it visits: a resolved reference must find
what it stands for exactly as many steps out as it notes. A node that does not find it stops the run with a fault,
so a watched run that agrees with the plain one has found everything.
-/

namespace LoxLang

/-- The variables of the frame exactly so many steps out, if there is such a frame. -/
def Machine.frame? (m : Machine) (distance : Nat) : Option (Bindings Value) :=
  match m.environment[distance]?.bind (m.heap.cells[·]?) with
  | some (.frame vars) => some vars
  | _ => none

/-- The value of a name in the frame exactly so many steps out. -/
def Machine.find? (m : Machine) (distance : Nat) (name : String) : Option Value :=
  (m.frame? distance).bind (·.get? name)

/-- A resolved reference finds its frame. -/
def Reference.findsFrame (m : Machine) (r : Reference Hops) : Bool :=
  r.note.all fun distance => (m.frame? distance).isSome

/-- A resolved reference finds its name in its frame. -/
def Reference.findsName (m : Machine) (r : Reference Hops) : Bool :=
  r.note.all fun distance => (m.find? distance r.name.lexeme).isSome

/-- A reference to a superclass is resolved. It finds a class under `super`, and an instance under `this` one step
further in. -/
def Reference.findsSuper (m : Machine) (r : Reference Hops) : Bool :=
  match r.note with
  | some (distance + 1) =>
    match m.find? (distance + 1) "super", m.find? distance "this" with
    | some (.classValue _), some (.object _) => true
    | _, _ => false
  | _ => false

/-- An expression finds what it refers to itself. -/
def Expr.finds (m : Machine) : Expr Hops → Bool
  | .variable reference => reference.findsName m
  | .this keyword => keyword.note.isSome && keyword.findsName m
  | .assign target _ => target.findsFrame m
  | .super keyword _ => keyword.findsSuper m
  | _ => true

/-- A statement finds what it refers to itself: a class, its superclass. -/
def Stmt.finds (m : Machine) : Stmt Hops → Bool
  | .class _ heritage _ => heritage.all (·.findsName m)
  | _ => true

/-- Runs if a check of the machine succeeds, and stops with a fault otherwise. -/
def Eval.ensuring {α : Type} (check : Machine → Bool) (act : Eval α) : Eval α := fun m =>
  if check m then act m else (.error (.fault .absent), m)

mutual

/-- Evaluates an expression under watch with at most `n` levels of nesting. -/
def evaluateWatched (settings : Settings) : Nat → Expr Hops → Eval Value
  | 0, _ => throw .tooDeep
  | n + 1, e =>
    .ensuring (fun m => e.finds m)
      (Runner.evaluateNode settings ⟨evaluateWatched settings n, executeWatched settings n⟩ e)

/-- Executes a statement under watch with at most `n` levels of nesting. -/
def executeWatched (settings : Settings) : Nat → Stmt Hops → Eval Completion
  | 0, _ => throw .tooDeep
  | n + 1, s =>
    .ensuring (fun m => s.finds m)
      (Runner.executeNode settings ⟨evaluateWatched settings n, executeWatched settings n⟩ s)

end

/-- The runner that watches. -/
def Settings.watcher (settings : Settings) : Runner where
  evaluate := evaluateWatched settings settings.nesting
  execute := executeWatched settings settings.nesting

/-- Runs the statements of a program under watch. -/
def Machine.runWatched (settings : Settings) (program : List (Stmt Hops)) (m : Machine) :
    Option Stop × Machine :=
  match settings.watcher.executeAll program m with
  | (.ok _, m) => (none, m)
  | (.error stop, m) => (some stop, m)

end LoxLang
