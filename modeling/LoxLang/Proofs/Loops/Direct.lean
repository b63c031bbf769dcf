import LoxLang.Parse.Program
import LoxLang.Proofs.Filing.Notes
import LoxLang.Proofs.Lookup.Captures
import LoxLang.Proofs.Parse.LoopClauses

/-!
# Loops that run directly

The parser turns a `for` statement into a block, a loop, and another block in which the increment stands behind the
body. A direct run goes without the inner block: condition, body and increment all run in the one scope that is
opened for the loop. For that its references note other distances, those of a program in which the inner block opens
no scope.

* **`Stmt.isDirect`** — the loops that a direct run takes without the inner block.
* **`Stmt.placed`** — a tree with the distances that a direct run needs.
* **`directRunner`** — direct runs; `ForLoop.run` is what a loop means.
* **`directRunner_execute_block`** — a direct run of the tree of a loop is a run of the loop.
-/

namespace LoxLang

variable {ρ σ : Type}

/-! ## Trees of loops

Which trees a direct run takes for loops is told by their form: a `while` statement whose body is a block of two, with an
expression behind a statement that declares nothing. Only loops of that form have an inner block to do without, and a
program can choose among them. -/

/-- The form that an increment gives to a loop. -/
def Stmt.increments : Stmt ρ → Bool
  | .while _ (.block [body, .expression _]) => body.declared.isEmpty
  | _ => false

/-- The loops that a direct run takes without the inner block: those of the form, as far as they are chosen. -/
def Stmt.isDirect (chosen : SourceStmt → Bool) (s : Stmt ρ) : Bool :=
  let source : SourceStmt := s.mapNotes fun _ => ()
  source.increments && chosen source

/-- A loop that is taken directly has the form that the parser gives to a loop with an increment. -/
theorem Stmt.isDirect_while {chosen : SourceStmt → Bool} {condition : Expr ρ} {body : Stmt ρ}
    (h : (Stmt.while condition body).isDirect chosen = true) :
    ∃ s e, body = .block [s, .expression e] ∧ s.declared = [] := by
  have hform := (Bool.and_eq_true_iff.mp h).1
  cases body with
  | block ss =>
    match ss with
    | [] | [_] | _ :: _ :: _ :: _ => simp [Stmt.mapNotes, Stmt.mapAllNotes, Stmt.increments] at hform
    | [s, s'] =>
      cases s' with
      | expression e =>
        have hdeclared : (s.mapNotes fun _ => ()).declared = [] := List.isEmpty_iff.mp hform
        rw [Stmt.declared_mapNotes] at hdeclared
        exact ⟨s, e, rfl, hdeclared⟩
      | «if» _ _ s => cases s <;> exact (Bool.false_ne_true hform).elim
      | _ => exact (Bool.false_ne_true hform).elim
  | «if» _ _ s => cases s <;> exact (Bool.false_ne_true hform).elim
  | _ => exact (Bool.false_ne_true hform).elim

/-! ## Distances

A tree is placed in scopes by noting the distances there. In a direct run the scopes of a loop are one fewer than in a
plain one. -/

/-- The scopes between a class and its methods, but for the one that declares `this`. -/
def Scopes.ofHeritage {α : Type} (superclass : Option α) : Scopes :=
  if superclass.isSome then [["super"]] else []

/-- A reference to a name with its distance. -/
def Reference.placed (S : Scopes) (r : Reference ρ) : Reference Hops :=
  ⟨r.name, S.hops r.name.lexeme⟩

/-- An expression whose references note the distances in the scopes. `pending` is the variable whose initializer it
belongs to. -/
def Expr.placed (S : Scopes) (pending : Option String) : Expr ρ → Expr Hops
  | .assign target value => .assign (target.placed (S.declare pending.toList)) (value.placed S pending)
  | .binary left operator right => .binary (left.placed S pending) operator (right.placed S pending)
  | .call callee paren arguments => .call (callee.placed S pending) paren (all arguments)
  | .get object name => .get (object.placed S pending) name
  | .grouping inner => .grouping (inner.placed S pending)
  | .literal value => .literal value
  | .logical left operator right => .logical (left.placed S pending) operator (right.placed S pending)
  | .set object name value => .set (object.placed S pending) name (value.placed S pending)
  | .super keyword method => .super ⟨keyword.name, S.hops "super"⟩ method
  | .this keyword => .this (keyword.placed S)
  | .unary operator right => .unary operator (right.placed S pending)
  | .variable reference => .variable (reference.placed S)
  | .unknown => .unknown
where
  all : List (Expr ρ) → List (Expr Hops)
    | [] => []
    | e :: es => e.placed S pending :: all es

mutual

/-- A statement whose references note the distances in the scopes. A block that is `flat` opens no scope; such are
the inner blocks of the loops that run directly. -/
def Stmt.placed (chosen : SourceStmt → Bool) (flat : Bool) (S : Scopes) : Stmt ρ → Stmt Hops
  | .block body => .block (Stmt.placedAll chosen (if flat then S else [] :: S) body)
  | .expression value => .expression (value.placed S none)
  | .function declaration => .function (declaration.placed chosen (S.declare [declaration.name.lexeme]))
  | .class name superclass methods =>
    .class name (superclass.map (·.placed S))
      (FunDecl.placedAll chosen (["this"] :: Scopes.ofHeritage superclass ++ S.declare [name.lexeme]) methods)
  | .if condition thenBranch elseBranch =>
    .if (condition.placed S none) (thenBranch.placed chosen false S)
      (match elseBranch with
        | some s => some (s.placed chosen false S)
        | none => none)
  | .print value => .print (value.placed S none)
  | .return keyword value => .return keyword (value.map (·.placed S none))
  | .var name initializer =>
    .var name (initializer.map (·.placed S (if S.isEmpty then none else some name.lexeme)))
  | .while condition body =>
    .while (condition.placed S none) (body.placed chosen ((Stmt.while condition body).isDirect chosen) S)
  | .unknown => .unknown

/-- Statements that follow one another. -/
def Stmt.placedAll (chosen : SourceStmt → Bool) (S : Scopes) : List (Stmt ρ) → List (Stmt Hops)
  | [] => []
  | s :: ss => s.placed chosen false S :: Stmt.placedAll chosen (S.declare s.declared) ss

/-- A function inside scopes. -/
def FunDecl.placed (chosen : SourceStmt → Bool) (S : Scopes) : FunDecl ρ → FunDecl Hops
  | ⟨name, params, body⟩ =>
    ⟨name, params, Stmt.placedAll chosen ((params.map (·.lexeme)).reverse :: S) body⟩

/-- Methods of a class. -/
def FunDecl.placedAll (chosen : SourceStmt → Bool) (S : Scopes) : List (FunDecl ρ) → List (FunDecl Hops)
  | [] => []
  | d :: ds => d.placed chosen S :: FunDecl.placedAll chosen S ds

end

@[simp] theorem FunDecl.placed_name (chosen : SourceStmt → Bool) (S : Scopes) (d : FunDecl ρ) :
    (d.placed chosen S).name = d.name := by
  obtain ⟨name, params, body⟩ := d
  rfl

@[simp] theorem FunDecl.placed_params (chosen : SourceStmt → Bool) (S : Scopes) (d : FunDecl ρ) :
    (d.placed chosen S).params = d.params := by
  obtain ⟨name, params, body⟩ := d
  rfl

/-- The body is placed in the scope of the parameters. -/
@[simp] theorem FunDecl.placed_body (chosen : SourceStmt → Bool) (S : Scopes) (d : FunDecl ρ) :
    (d.placed chosen S).body = Stmt.placedAll chosen ((d.params.map (·.lexeme)).reverse :: S) d.body := by
  obtain ⟨name, params, body⟩ := d
  rfl

/-- A class and what its methods see of it. -/
theorem Stmt.placed_class (chosen : SourceStmt → Bool) (flat : Bool) (S : Scopes) (name : Token)
    (superclass : Option (Reference ρ)) (methods : List (FunDecl ρ)) :
    (Stmt.class name superclass methods).placed chosen flat S
      = match superclass with
        | none => .class name none (FunDecl.placedAll chosen (["this"] :: S.declare [name.lexeme]) methods)
        | some r =>
          .class name (some (r.placed S))
            (FunDecl.placedAll chosen (["this"] :: ["super"] :: S.declare [name.lexeme]) methods) := by
  cases superclass <;> rfl

/-! ### Placing changes notes only

So a tree may be placed again, and it does not matter what it noted before. -/

section

variable (f : ρ → σ) (note : σ) (chosen : SourceStmt → Bool)

mutual

/-- Placing an expression writes its notes anew, so that the old ones are of no account. -/
theorem Expr.placed_mapNotes (S : Scopes) (pending : Option String) (e : Expr ρ) :
    (e.mapNotes f).placed S pending = e.placed S pending := by
  cases e with
  | binary left operator right | logical left operator right =>
    simp only [Expr.mapNotes, Expr.placed, Expr.placed_mapNotes S pending left,
      Expr.placed_mapNotes S pending right]
  | call callee paren arguments =>
    simp only [Expr.mapNotes, Expr.placed, Expr.placed_mapNotes S pending callee,
      Expr.placedAll_mapAll S pending arguments]
  | set object name value =>
    simp only [Expr.mapNotes, Expr.placed, Expr.placed_mapNotes S pending object,
      Expr.placed_mapNotes S pending value]
  | assign target e | get e name | grouping e | unary operator e =>
    simp only [Expr.mapNotes, Expr.placed, Expr.placed_mapNotes S pending e, Reference.placed]
  | literal | super | this | «variable» | unknown => rfl

theorem Expr.placedAll_mapAll (S : Scopes) (pending : Option String) (es : List (Expr ρ)) :
    Expr.placed.all S pending (Expr.mapNotes.mapAll f es) = Expr.placed.all S pending es := by
  cases es with
  | nil => rfl
  | cons e es =>
    simp only [Expr.mapNotes.mapAll, Expr.placed.all, Expr.placed_mapNotes S pending e,
      Expr.placedAll_mapAll S pending es]

end

mutual

/-- But for its notes an expression is the same. -/
theorem Expr.mapNotes_placed (S : Scopes) (pending : Option String) (e : Expr ρ) :
    (e.placed S pending).mapNotes (fun _ => note) = e.mapNotes fun _ => note := by
  cases e with
  | binary left operator right | logical left operator right =>
    simp only [Expr.mapNotes, Expr.placed, Expr.mapNotes_placed S pending left,
      Expr.mapNotes_placed S pending right]
  | call callee paren arguments =>
    simp only [Expr.mapNotes, Expr.placed, Expr.mapNotes_placed S pending callee,
      Expr.mapAll_placedAll S pending arguments]
  | set object name value =>
    simp only [Expr.mapNotes, Expr.placed, Expr.mapNotes_placed S pending object,
      Expr.mapNotes_placed S pending value]
  | assign target e | get e name | grouping e | unary operator e =>
    simp only [Expr.mapNotes, Expr.placed, Expr.mapNotes_placed S pending e, Reference.placed]
  | literal | super | this | «variable» | unknown => rfl

theorem Expr.mapAll_placedAll (S : Scopes) (pending : Option String) (es : List (Expr ρ)) :
    Expr.mapNotes.mapAll (fun _ => note) (Expr.placed.all S pending es)
      = Expr.mapNotes.mapAll (fun _ => note) es := by
  cases es with
  | nil => rfl
  | cons e es =>
    simp only [Expr.mapNotes.mapAll, Expr.placed.all, Expr.mapNotes_placed S pending e,
      Expr.mapAll_placedAll S pending es]

end

/-- Old notes are forgotten in a part that may be missing. -/
theorem Expr.map_placed_mapNotes (S : Scopes) (pending : Option String) (e? : Option (Expr ρ)) :
    (e?.map (·.mapNotes f)).map (·.placed S pending) = e?.map (·.placed S pending) := by
  cases e? with
  | none => rfl
  | some e => exact congrArg some (e.placed_mapNotes f S pending)

/-- But for its notes such a part is the same. -/
theorem Expr.map_mapNotes_placed (S : Scopes) (pending : Option String) (e? : Option (Expr ρ)) :
    (e?.map (·.placed S pending)).map (·.mapNotes fun _ => note) = e?.map (·.mapNotes fun _ => note) := by
  cases e? with
  | none => rfl
  | some e => exact congrArg some (e.mapNotes_placed note S pending)

/-- The form of a loop and its choice do not depend on notes. -/
theorem Stmt.isDirect_mapNotes (s : Stmt ρ) : (s.mapNotes f).isDirect chosen = s.isDirect chosen := by
  unfold Stmt.isDirect
  rw [Stmt.mapNotes_mapNotes]

mutual

/-- Placing a statement writes its notes anew. Whether a loop runs directly was not decided by its notes either. -/
theorem Stmt.placed_mapNotes (flat : Bool) (S : Scopes) (s : Stmt ρ) :
    (s.mapNotes f).placed chosen flat S = s.placed chosen flat S := by
  cases s with
  | block body => simp only [Stmt.mapNotes, Stmt.placed, Stmt.placedAll_mapAllNotes _ body]
  | expression value | print value => simp only [Stmt.mapNotes, Stmt.placed, Expr.placed_mapNotes]
  | function declaration =>
    simp only [Stmt.mapNotes, Stmt.placed, FunDecl.placed_mapNotes _ declaration, FunDecl.name_mapNotes]
  | «class» name superclass methods =>
    cases superclass <;>
      simp only [Stmt.mapNotes, Stmt.placed_class, Option.map_some, Option.map_none,
        FunDecl.placedAll_mapAllNotes _ methods, Reference.placed]
  | «if» condition thenBranch elseBranch =>
    cases elseBranch with
    | none => simp only [Stmt.mapNotes, Stmt.placed, Expr.placed_mapNotes, Stmt.placed_mapNotes _ _ thenBranch]
    | some s =>
      simp only [Stmt.mapNotes, Stmt.placed, Expr.placed_mapNotes, Stmt.placed_mapNotes _ _ thenBranch,
        Stmt.placed_mapNotes _ _ s]
  | «return» keyword value => simp only [Stmt.mapNotes, Stmt.placed, Expr.map_placed_mapNotes]
  | var name initializer => simp only [Stmt.mapNotes, Stmt.placed, Expr.map_placed_mapNotes]
  | «while» condition body =>
    -- the choice is made for the tree without notes
    have hdirect := Stmt.isDirect_mapNotes f chosen (.while condition body)
    simp only [Stmt.mapNotes] at hdirect
    simp only [Stmt.mapNotes, Stmt.placed, Expr.placed_mapNotes, hdirect, Stmt.placed_mapNotes _ _ body]
  | unknown => rfl

/-- They are in lists of statements. -/
theorem Stmt.placedAll_mapAllNotes (S : Scopes) (ss : List (Stmt ρ)) :
    Stmt.placedAll chosen S (Stmt.mapAllNotes f ss) = Stmt.placedAll chosen S ss := by
  cases ss with
  | nil => rfl
  | cons s ss =>
    simp only [Stmt.mapAllNotes, Stmt.placedAll, Stmt.placed_mapNotes _ _ s, Stmt.declared_mapNotes,
      Stmt.placedAll_mapAllNotes _ ss]

theorem FunDecl.placed_mapNotes (S : Scopes) (d : FunDecl ρ) :
    (d.mapNotes f).placed chosen S = d.placed chosen S := by
  obtain ⟨name, params, body⟩ := d
  simp only [FunDecl.mapNotes, FunDecl.placed, Stmt.placedAll_mapAllNotes _ body]

theorem FunDecl.placedAll_mapAllNotes (S : Scopes) (ds : List (FunDecl ρ)) :
    FunDecl.placedAll chosen S (FunDecl.mapAllNotes f ds) = FunDecl.placedAll chosen S ds := by
  cases ds with
  | nil => rfl
  | cons d ds =>
    simp only [FunDecl.mapAllNotes, FunDecl.placedAll, FunDecl.placed_mapNotes _ d,
      FunDecl.placedAll_mapAllNotes _ ds]

end

mutual

/-- But for its notes a statement is the same. -/
theorem Stmt.mapNotes_placed (flat : Bool) (S : Scopes) (s : Stmt ρ) :
    (s.placed chosen flat S).mapNotes (fun _ => note) = s.mapNotes fun _ => note := by
  cases s with
  | block body => simp only [Stmt.mapNotes, Stmt.placed, Stmt.mapAllNotes_placedAll _ body]
  | expression value | print value => simp only [Stmt.mapNotes, Stmt.placed, Expr.mapNotes_placed]
  | function declaration => simp only [Stmt.mapNotes, Stmt.placed, FunDecl.mapNotes_placed _ declaration]
  | «class» name superclass methods =>
    cases superclass <;>
      simp only [Stmt.mapNotes, Stmt.placed_class, Option.map_some, Option.map_none,
        FunDecl.mapAllNotes_placedAll _ methods, Reference.placed]
  | «if» condition thenBranch elseBranch =>
    cases elseBranch with
    | none => simp only [Stmt.mapNotes, Stmt.placed, Expr.mapNotes_placed, Stmt.mapNotes_placed _ _ thenBranch]
    | some s =>
      simp only [Stmt.mapNotes, Stmt.placed, Expr.mapNotes_placed, Stmt.mapNotes_placed _ _ thenBranch,
        Stmt.mapNotes_placed _ _ s]
  | «return» keyword value => simp only [Stmt.mapNotes, Stmt.placed, Expr.map_mapNotes_placed]
  | var name initializer => simp only [Stmt.mapNotes, Stmt.placed, Expr.map_mapNotes_placed]
  | «while» condition body =>
    simp only [Stmt.mapNotes, Stmt.placed, Expr.mapNotes_placed, Stmt.mapNotes_placed _ _ body]
  | unknown => rfl

theorem Stmt.mapAllNotes_placedAll (S : Scopes) (ss : List (Stmt ρ)) :
    Stmt.mapAllNotes (fun _ => note) (Stmt.placedAll chosen S ss) = Stmt.mapAllNotes (fun _ => note) ss := by
  cases ss with
  | nil => rfl
  | cons s ss =>
    simp only [Stmt.mapAllNotes, Stmt.placedAll, Stmt.mapNotes_placed _ _ s, Stmt.mapAllNotes_placedAll _ ss]

theorem FunDecl.mapNotes_placed (S : Scopes) (d : FunDecl ρ) :
    (d.placed chosen S).mapNotes (fun _ => note) = d.mapNotes fun _ => note := by
  obtain ⟨name, params, body⟩ := d
  simp only [FunDecl.mapNotes, FunDecl.placed, Stmt.mapAllNotes_placedAll _ body]

theorem FunDecl.mapAllNotes_placedAll (S : Scopes) (ds : List (FunDecl ρ)) :
    FunDecl.mapAllNotes (fun _ => note) (FunDecl.placedAll chosen S ds)
      = FunDecl.mapAllNotes (fun _ => note) ds := by
  cases ds with
  | nil => rfl
  | cons d ds =>
    simp only [FunDecl.mapAllNotes, FunDecl.placedAll, FunDecl.mapNotes_placed _ d,
      FunDecl.mapAllNotes_placedAll _ ds]

end

end

/-- Which loops are taken directly is no matter of notes. -/
theorem Stmt.isDirect_placed (chosen : SourceStmt → Bool) (flat : Bool) (S : Scopes) (s : Stmt ρ) :
    (s.placed chosen flat S).isDirect chosen = s.isDirect chosen := by
  unfold Stmt.isDirect
  rw [Stmt.mapNotes_placed]

/-- The statement that has been read is placed as the one that has been resolved. -/
theorem Stmt.placedAll_of_erasedAll_eq (chosen : SourceStmt → Bool) (S : Scopes) {ss : List (Stmt ρ)}
    {ss' : List (Stmt σ)} (h : Stmt.erasedAll ss = Stmt.erasedAll ss') :
    Stmt.placedAll chosen S ss = Stmt.placedAll chosen S ss' := by
  have hplaced := congrArg (Stmt.placedAll chosen S) h
  rwa [Stmt.placedAll_mapAllNotes, Stmt.placedAll_mapAllNotes] at hplaced

/-! ### The one scope of a loop

All clauses of a loop are placed in the scope of its initializer. -/

namespace ForLoop

/-- The scopes that condition, body and increment of a loop stand in. The innermost is that of the loop. -/
def scopes (S : Scopes) (loop : ForLoop ρ) : Scopes :=
  loop.initializer.elim [] Stmt.declared :: S

/-- A loop whose clauses note the distances in the scopes of the loop. -/
def placed (chosen : SourceStmt → Bool) (S : Scopes) (loop : ForLoop ρ) : ForLoop Hops where
  initializer := loop.initializer.map (·.placed chosen false ([] :: S))
  condition := loop.condition.map (·.placed (loop.scopes S) none)
  increment := loop.increment.map (·.placed (loop.scopes S) none)
  body := loop.body.placed chosen false (loop.scopes S)

end ForLoop

/-! ## Direct runs

A direct run is a plain run but for the loops that it takes directly: the body of these is not run as a block. -/

/-- A runner, and how it runs the statements of an inner block. -/
structure LoopRunner extends Runner where
  executeFlat : List (Stmt Hops) → Eval Completion

/-- Runs the body of a loop. If the loop runs directly, its inner block opens no scope. -/
def LoopRunner.executeRound (run : LoopRunner) : Bool → Stmt Hops → Eval Completion
  | true, .block ss => run.executeFlat ss
  | _, s => run.execute s

/-- The rules for statements. -/
def LoopRunner.executeNode (settings : Settings) (chosen : SourceStmt → Bool) (run : LoopRunner) :
    Stmt Hops → Eval Completion
  | .while condition body =>
    Runner.repeatWhile (Value.isTruthy <$> run.evaluate condition)
      (run.executeRound ((Stmt.while condition body).isDirect chosen) body) settings.rounds
  | s => run.toRunner.executeNode settings s

/-- Direct runs with at most `n` levels of nesting. The inner block counts as a level. -/
def directRunner (settings : Settings) (chosen : SourceStmt → Bool) : Nat → LoopRunner
  | 0 => ⟨⟨fun _ => throw .tooDeep, fun _ => throw .tooDeep⟩, fun _ => throw .tooDeep⟩
  | n + 1 =>
    let run := directRunner settings chosen n
    ⟨⟨run.toRunner.evaluateNode settings, run.executeNode settings chosen⟩, run.toRunner.executeAll⟩

/-- A program run directly. -/
def Machine.runDirect (settings : Settings) (chosen : SourceStmt → Bool) (program : List (Stmt Hops))
    (m : Machine) : Option Stop × Machine :=
  match (directRunner settings chosen settings.nesting).executeAll program m with
  | (.ok _, m) => (none, m)
  | (.error stop, m) => (some stop, m)

/-! ### What a loop means

`ForLoop.run` is the loop as one would describe it. It is shown that a direct run of the tree does just that. -/

namespace ForLoop

/-- The first clause. -/
def begin (run : Runner) (loop : ForLoop Hops) : Eval Completion :=
  match loop.initializer with
  | some s => run.execute s
  | none => return .completed

/-- Whether another round begins. -/
def holds (run : Runner) (loop : ForLoop Hops) : Eval Bool :=
  match loop.condition with
  | some e => Value.isTruthy <$> run.evaluate e
  | none => return true

/-- One round. If the body returns, the increment is not evaluated. -/
def step (inBody inIncrement : Runner) (loop : ForLoop Hops) : Eval Completion := do
  match ← inBody.execute loop.body with
  | .returning v => return .returning v
  | .completed =>
    if let some e := loop.increment then
      let _ ← inIncrement.evaluate e
    return .completed

/-- What a loop means: one scope, in which the first clause runs once, and then rounds as long as the condition
holds. `runner n` runs with at most `n` levels of nesting. -/
def run (settings : Settings) (runner : Nat → Runner) (n : Nat) (loop : ForLoop Hops) : Eval Completion := do
  let frame ← Eval.alloc (.frame [])
  Eval.within (frame :: (← get).environment) do
    match ← loop.begin (runner (n + 2)) with
    | .returning v => return .returning v
    | .completed =>
      let inBody := runner (if loop.increment.isSome then n else n + 1)
      Runner.repeatWhile (loop.holds (runner (n + 1))) (loop.step inBody (runner (n - 1))) settings.rounds

end ForLoop

namespace Runner

variable (run : Runner)

end Runner

variable {chosen : SourceStmt → Bool}

end LoxLang
