import LoxLang.Proofs.Lines.Machines

/-!
# Evaluation on other lines

The evaluator commutes with moving: on the moved machine the moved program does what the program does.

* **`Machine.run_moved`** — the statement for whole runs.

The induction is on the depth of nesting, as the evaluator is built.

There is one rule for each function of the evaluator, stated for any runner that moves; the induction supplies the
runner. A function whose rule has to be changed shows up here by name, and nothing else does.
-/

namespace LoxLang

open Eval

variable {L : Lines}

/-! ## Functions, classes and instances

Calls are stated for any way to run a body (`body` on moved code does what `body` does), because the evaluator is tied
to them only by the induction. -/

/-- A closure keeps the declaration that it was made from, moved, and the environment as it is. -/
theorem Closure.create_moves (declaration : FunDecl Hops) (env : Environment) (isInitializer : Bool) :
    Moves L (·.moved L) (Closure.create declaration env isInitializer)
      (Closure.create (declaration.moved L) env isInitializer) :=
  (Moves.alloc .identity).bind fun _ => .pure rfl

/-- Binding puts a frame with `this` around the method's environment. -/
theorem Closure.bind_moves (f : Closure) (this : Value) :
    Moves L (·.moved L) (f.bind this) ((f.moved L).bind (this.moved L)) :=
  (Moves.alloc (.frame [("this", this)])).bind fun _ => Closure.create_moves _ _ _

section

variable {body : BodyRunner} (hbody : ∀ ss, Moves L (·.moved L) (body ss) (body (Stmt.movedAll L ss)))
include hbody

/-- The parameters are bound by name, and an initializer answers with `this`, so that nothing of the body's lines gets
into the result. -/
theorem Closure.call_moves (f : Closure) (arguments : List Value) :
    Moves L (·.moved L) (f.call body arguments) ((f.moved L).call body (arguments.map (·.moved L))) := by
  -- the parameters move, and their names stay what they are
  have hparams : ((f.moved L).declaration.params).map (·.lexeme) = f.declaration.params.map (·.lexeme) := by
    show ((f.declaration.moved L).params).map (·.lexeme) = _
    rw [FunDecl.params_moved, List.map_map]
    rfl
  have hframe : Moves L id (Eval.alloc (.frame (.ofLists (f.declaration.params.map (·.lexeme)) arguments)))
      (Eval.alloc (.frame (.ofLists ((f.moved L).declaration.params.map (·.lexeme))
        (arguments.map (·.moved L))))) := by
    rw [hparams, Bindings.ofLists_map]
    exact .alloc _
  have hrun : Moves L (·.moved L) (body f.declaration.body) (body (f.moved L).declaration.body) := by
    have hmoved : (f.moved L).declaration.body = Stmt.movedAll L f.declaration.body := FunDecl.body_moved L _
    rw [hmoved]
    exact hbody _
  unfold Closure.call
  apply hframe.bind
  intro frame
  apply hrun.within.bind
  intro completion
  show Moves L _ (if f.isInitializer then _ else _) (if f.isInitializer then _ else _)
  split
  · exact .readAt _ _ _
  · cases completion <;> exact .pure rfl

/-- A new instance, and then its initializer if the class has one. -/
theorem Class.instantiate_moves (c : Class) (arguments : List Value) :
    Moves L (·.moved L) (c.instantiate body arguments)
      ((c.moved L).instantiate body (arguments.map (·.moved L))) := by
  have hinitializer : (c.moved L).initializer? = c.initializer?.map (·.moved L) :=
    Class.findMethod?_moved L c "init"
  unfold Class.instantiate
  apply (Moves.alloc (.fields [])).bind
  intro address
  rw [hinitializer]
  cases c.initializer? with
  | none => exact .pure rfl
  | some f =>
    apply (Closure.bind_moves f (.object ⟨address, c⟩)).bind
    intro g
    exact (Closure.call_moves hbody g arguments).bind fun _ => .pure rfl

/-- What is called is a function, a class or the clock; the arity was checked before. -/
theorem Value.call_moves (settings : Settings) (callee : Value) (arguments : List Value) :
    Moves L (·.moved L) (callee.call settings body arguments)
      ((callee.moved L).call settings body (arguments.map (·.moved L))) := by
  cases callee with
  | function f => exact Closure.call_moves hbody f arguments
  | clock => exact .readClock settings
  | classValue c => exact Class.instantiate_moves hbody c arguments
  | nil | bool | number | string | object => exact .throw _

end

/-- Fields come before methods, and the complaint about a missing property is at its name. -/
theorem Instance.get_moves (i : Instance) (name : Token) :
    Moves L (·.moved L) (i.get name) ((i.moved L).get (name.moved L)) := by
  apply Moves.get
  intro m
  have hfield : ((m.moved L).heap.fields (i.moved L).address).get? (name.moved L).lexeme
      = ((m.heap.fields i.address).get? name.lexeme).map (·.moved L) := by
    show (((m.heap.moved L).fields i.address).get? name.lexeme) = _
    rw [Heap.fields_moved, Bindings.get?_mapValues]
  have hmethod : (i.moved L).origin.findMethod? (name.moved L).lexeme
      = (i.origin.findMethod? name.lexeme).map (·.moved L) := Class.findMethod?_moved L i.origin name.lexeme
  rw [hfield, hmethod]
  cases (m.heap.fields i.address).get? name.lexeme with
  | some v => exact .pure rfl
  | none =>
    cases i.origin.findMethod? name.lexeme with
    | some method => exact (Closure.bind_moves method (.object i)).map fun _ => rfl
    | none => exact .fail _ _

/-! ## The rules

The assumption about the runner is the conclusion for smaller depth: what is nested is run moved as it is run. -/

/-- A runner that does on moved code what it does on the code. -/
structure Runner.Moves (L : Lines) (run : Runner) : Prop where
  evaluate : ∀ e, Eval.Moves L (·.moved L) (run.evaluate e) (run.evaluate (e.moved L))
  execute : ∀ s, Eval.Moves L (·.moved L) (run.execute s) (run.execute (s.moved L))

namespace Runner

variable {run : Runner}

/-- A reference has its distance as a note, which is not moved. -/
theorem lookUp_moves (reference : Reference Hops) :
    Eval.Moves L (·.moved L) (lookUp reference) (lookUp (reference.moved L)) := by
  unfold lookUp
  rw [Reference.note_moved]
  cases reference.note with
  | none => exact .read _ _
  | some distance => exact .get fun _ => .readAt _ _ _

/-- To a global or at a distance, as the note says. -/
theorem assign_moves (target : Reference Hops) (v : Value) :
    Eval.Moves L id (assign target v) (assign (target.moved L) (v.moved L)) := by
  unfold assign
  rw [Reference.note_moved]
  cases target.note with
  | none => exact .assign _ _ _
  | some distance => exact .get fun _ => .assignAt _ _ _ _

/-- The superclass and the instance are found at distances that are noted; the method may be missing there. -/
theorem superMethod_moves (keyword : Reference Hops) (method : Token) :
    Eval.Moves L (·.moved L) (superMethod keyword method) (superMethod (keyword.moved L) (method.moved L)) := by
  unfold superMethod
  rw [Reference.note_moved]
  cases keyword.note with
  | none => exact .throw _
  | some distance =>
    refine .get fun m => (Moves.readAt _ _ _).bind fun superclass => (Moves.readAt _ _ _).bind fun this => ?_
    cases superclass with
    | classValue c =>
      have hvalue : (Value.classValue c).moved L = .classValue (c.moved L) := rfl
      rw [hvalue]
      dsimp only
      rw [Class.findMethod?_moved, Token.lexeme_moved]
      cases c.findMethod? method.lexeme with
      | some f => exact (Closure.bind_moves f this).map fun _ => rfl
      | none => exact .fail _ _
    | _ => exact .throw _

/-- The complaint about a superclass that is no class is at its name. -/
theorem superclass_moves (reference : Reference Hops) :
    Eval.Moves L (·.moved L) (superclass reference) (superclass (reference.moved L)) := by
  apply (lookUp_moves reference).bind
  intro v
  cases v with
  | classValue c => exact .pure rfl
  | _ => exact .fail _ _

/-- Method by method. A name that is declared twice is bound to the later one on both sides. -/
theorem createMethods_moves (env : Environment) (ds : List (FunDecl Hops)) (methods : Bindings Closure) :
    Eval.Moves L (Bindings.mapValues (·.moved L)) (createMethods env ds methods)
      (createMethods env (FunDecl.movedAll L ds) (methods.mapValues (·.moved L))) := by
  induction ds generalizing methods with
  | nil => exact .pure rfl
  | cons d ds ih =>
    unfold createMethods
    rw [FunDecl.movedAll]
    dsimp only
    rw [FunDecl.name_moved, Token.lexeme_moved]
    apply (Closure.create_moves d env _).bind
    intro f
    rw [Bindings.put_mapValues]
    exact ih _

/-! ### Classes

A class declaration goes in four steps, with a rule for each. -/

/-- The superclass, if there is one. -/
theorem parentOf_moves (heritage : Option (Reference Hops)) :
    Eval.Moves L (Option.map (·.moved L)) (parentOf heritage) (parentOf (heritage.map (·.moved L))) := by
  cases heritage with
  | none => exact .pure rfl
  | some reference => exact (superclass_moves reference).map fun _ => rfl

/-- The frame that binds `super`, if there is a superclass. -/
theorem methodScope_moves (env : Environment) (parent : Option Class) :
    Eval.Moves L id (methodScope env parent) (methodScope env (parent.map (·.moved L))) := by
  cases parent with
  | none => exact .pure rfl
  | some c => exact (Moves.alloc (.frame [("super", .classValue c)])).map fun _ => rfl

/-- The class itself is made and assigned to its name. -/
theorem finishClass_moves (env : Environment) (name : Token) (parent : Option Class) (methods : Bindings Closure) :
    Eval.Moves L id (finishClass env name parent methods)
      (finishClass env (name.moved L) (parent.map (·.moved L)) (methods.mapValues (·.moved L))) := by
  apply (Moves.alloc .identity).bind
  intro address
  cases parent <;> exact .assign env name (.classValue ⟨⟨address, name.lexeme, methods⟩, _⟩)

/-- The four steps in a row, with the name declared in between. -/
theorem declareClass_moves (name : Token) (heritage : Option (Reference Hops)) (methods : List (FunDecl Hops)) :
    Eval.Moves L id (declareClass name heritage methods)
      (declareClass (name.moved L) (heritage.map (·.moved L)) (FunDecl.movedAll L methods)) := by
  rw [declareClass_eq, declareClass_eq]
  refine (parentOf_moves heritage).bind fun parent => (Moves.declare name .nil).bind fun _ => .get fun m => ?_
  refine (methodScope_moves m.environment parent).bind fun inner => ?_
  exact (createMethods_moves inner methods []).bind fun methods => finishClass_moves m.environment name parent methods

/-! ### Loops

Both loops make the same rounds, since their conditions have values that are alike. -/

/-- Round by round: the test has no lines, and a body that returns ends both loops. -/
theorem repeatWhile_moves {test test' : Eval Bool} {body body' : Eval Completion}
    (htest : Eval.Moves L id test test') (hbody : Eval.Moves L (·.moved L) body body') (rounds : Nat) :
    Eval.Moves L (·.moved L) (repeatWhile test body rounds) (repeatWhile test' body' rounds) := by
  induction rounds with
  | zero => exact .throw _
  | succ rounds ih =>
    apply htest.bind
    intro b
    cases b with
    | false => exact .pure rfl
    | true =>
      apply hbody.bind
      intro completion
      cases completion with
      | returning v => exact .pure rfl
      | completed => exact ih

/-! ### Expressions and statements

Lists of nested parts are evaluated from left to right, by induction on the list. -/

variable (hrun : run.Moves L)
include hrun

theorem evaluateAll_moves (es : List (Expr Hops)) :
    Eval.Moves L (List.map (·.moved L)) (run.evaluateAll es) (run.evaluateAll (Expr.moved.all L es)) := by
  induction es with
  | nil => exact .pure rfl
  | cons e es ih => exact (hrun.evaluate e).bind fun v => ih.bind fun _ => .pure rfl

/-- A part that may be missing, which counts as `nil`. -/
theorem evaluateOption_moves (e? : Option (Expr Hops)) :
    Eval.Moves L (·.moved L) (run.evaluateOption e?) (run.evaluateOption (e?.map (·.moved L))) := by
  cases e? with
  | none => exact .pure rfl
  | some e => exact hrun.evaluate e

/-- Statements one after the other, up to one that returns. -/
theorem executeAll_moves (ss : List (Stmt Hops)) :
    Eval.Moves L (·.moved L) (run.executeAll ss) (run.executeAll (Stmt.movedAll L ss)) := by
  induction ss with
  | nil => exact .pure rfl
  | cons s ss ih =>
    apply (hrun.execute s).bind
    intro completion
    cases completion with
    | returning v => exact .pure rfl
    | completed => exact ih

/-- A call with its checks: whether the value can be called, and the number of arguments. Both complaints are at the
parenthesis. -/
theorem call_moves (settings : Settings) (paren : Token) (callee : Value) (arguments : List Value) :
    Eval.Moves L (·.moved L) (run.call settings paren callee arguments)
      (run.call settings (paren.moved L) (callee.moved L) (arguments.map (·.moved L))) := by
  unfold call
  rw [Value.arity?_moved, List.length_map]
  split
  · exact .fail _ _
  · split
    · exact (Value.call_moves (executeAll_moves hrun) settings callee arguments).overflowAt
    · exact .fail _ _

/-- The rules for expressions, one case for each form. The order of evaluation is that of the rule. -/
theorem evaluateNode_moves (settings : Settings) (e : Expr Hops) :
    Eval.Moves L (·.moved L) (evaluateNode settings run e) (evaluateNode settings run (e.moved L)) := by
  -- one case for each form, in the order in which its parts are evaluated
  cases e with
  | assign target value =>
    exact (hrun.evaluate value).bind fun v => (assign_moves target v).bind fun _ => .pure rfl
  | binary left operator right =>
    exact (hrun.evaluate left).bind fun l => (hrun.evaluate right).bind fun r => .binary operator l r
  | call callee paren arguments =>
    apply (hrun.evaluate callee).bind
    intro f
    exact (evaluateAll_moves hrun arguments).bind fun vs => call_moves hrun settings paren f vs
  | get object name =>
    apply (hrun.evaluate object).bind
    intro v
    cases v with
    | object i => exact Instance.get_moves i name
    | _ => exact .fail _ _
  | grouping inner => exact hrun.evaluate inner
  | literal value => exact .pure (Literal.value_moved L value)
  | logical left operator right =>
    apply (hrun.evaluate left).bind
    intro l
    rw [Value.isTruthy_moved, Token.kind_moved]
    split
    · exact .pure rfl
    · exact hrun.evaluate right
  | set object name value =>
    apply (hrun.evaluate object).bind
    intro o
    cases o with
    | object i =>
      exact (hrun.evaluate value).bind fun v => (Moves.setField i.address name.lexeme v).bind fun _ => .pure rfl
    | _ => exact .fail _ _
  | super keyword method => exact superMethod_moves keyword method
  | this keyword => exact lookUp_moves keyword
  | unary operator right => exact (hrun.evaluate right).bind fun r => .unary operator r
  | «variable» reference => exact lookUp_moves reference
  | unknown => exact .throw _

/-- The rules for statements. A block, a function and a class allocate before they bind; the addresses are the same in
both runs. -/
theorem executeNode_moves (settings : Settings) (s : Stmt Hops) :
    Eval.Moves L (·.moved L) (executeNode settings run s) (executeNode settings run (s.moved L)) := by
  -- one case for each form; what is nested is run by `hrun`
  cases s with
  | block body =>
    apply (Moves.alloc (.frame [])).bind
    intro frame
    exact .get fun m => (executeAll_moves hrun body).within
  | expression value => exact (hrun.evaluate value).bind fun _ => .pure rfl
  | function declaration =>
    apply Moves.get
    intro m
    apply (Closure.create_moves declaration m.environment false).bind
    intro f
    -- the value that is bound is the moved function, for the frame holds values
    rw [FunDecl.name_moved]
    exact (Moves.declare declaration.name (.function f)).bind fun _ => .pure rfl
  | «class» name heritage methods =>
    exact (declareClass_moves name heritage methods).bind fun _ => .pure rfl
  | «if» condition thenBranch elseBranch =>
    cases elseBranch with
    | none =>
      apply (hrun.evaluate condition).bind
      intro v
      rw [Value.isTruthy_moved]
      split
      · exact hrun.execute thenBranch
      · exact .pure rfl
    | some s =>
      apply (hrun.evaluate condition).bind
      intro v
      rw [Value.isTruthy_moved]
      split
      · exact hrun.execute thenBranch
      · exact hrun.execute s
  | print value =>
    apply (hrun.evaluate value).bind
    intro v
    rw [Value.text_moved]
    exact (Moves.print v.text).bind fun _ => .pure rfl
  | «return» keyword value => exact (evaluateOption_moves hrun value).bind fun _ => .pure rfl
  | var name initializer =>
    exact (evaluateOption_moves hrun initializer).bind fun v => (Moves.declare name v).bind fun _ => .pure rfl
  | «while» condition body =>
    apply repeatWhile_moves
    · exact (hrun.evaluate condition).map fun v => (Value.isTruthy_moved L v).symm
    · exact hrun.execute body
  | unknown => exact .throw _

end Runner

/-! ## Every depth

The runner with depth `n + 1` is made from the one with depth `n` by the rules. -/

/-- By induction on the depth. At depth zero both runs stop. -/
theorem nested_moves (settings : Settings) (n : Nat) :
    Runner.Moves L ⟨evaluateNested settings n, executeNested settings n⟩ := by
  induction n with
  | zero => exact ⟨fun _ => .throw _, fun _ => .throw _⟩
  | succ n ih =>
    exact ⟨fun e => Runner.evaluateNode_moves ih settings e, fun s => Runner.executeNode_moves ih settings s⟩

/-- The moved program does on the moved machine what the program does on the machine. -/
theorem Machine.run_moved (settings : Settings) (program : List (Stmt Hops)) (m : Machine) :
    (m.moved L).run settings (Stmt.movedAll L program)
      = ((m.run settings program).1.map (·.moved L), (m.run settings program).2.moved L) := by
  have hnested : settings.runner.Moves L := nested_moves settings settings.nesting
  unfold Machine.run
  rw [Runner.executeAll_moves hnested program m]
  rcases settings.runner.executeAll program m with ⟨result, m'⟩
  cases result <;> rfl

end LoxLang
