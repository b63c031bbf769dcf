import LoxLang.Proofs.Filing.Notes
import LoxLang.Proofs.Run.Outcomes

/-!
# Notes that are looked up

An evaluator that does not take the notes of references for distances, but looks them up: it sees each note through a
view when it visits the node. So one note may mean one thing in one run, and another thing in the next one.

* **`evaluateViewed`**, **`executeViewed`** — the evaluator under a view.
* **`nested_carries`** — if notes are changed and the view is changed to match, runs do the same.
-/

namespace LoxLang

/-! ## The evaluator under a view

Notes are seen through the view at each node that is visited, and not when the code is made. A function that was made in
one program is seen through the view of the program that calls it. -/

/-- An expression whose own reference is seen through a view. -/
def Expr.through (view : View) : Expr Hops → Expr Hops
  | .assign target value => .assign (target.through view) value
  | .super keyword method => .super (keyword.through view) method
  | .this keyword => .this (keyword.through view)
  | .variable reference => .variable (reference.through view)
  | e => e

/-- A statement whose own reference is seen through a view: a class, that to its superclass. -/
def Stmt.through (view : View) : Stmt Hops → Stmt Hops
  | .class name heritage methods => .class name (heritage.map (·.through view)) methods
  | s => s

mutual

/-- Evaluates an expression under a view with at most `n` levels of nesting. -/
def evaluateViewed (settings : Settings) (view : View) : Nat → Expr Hops → Eval Value
  | 0, _ => throw .tooDeep
  | n + 1, e =>
    Runner.evaluateNode settings ⟨evaluateViewed settings view n, executeViewed settings view n⟩ (e.through view)

/-- Executes a statement under a view with at most `n` levels of nesting. -/
def executeViewed (settings : Settings) (view : View) : Nat → Stmt Hops → Eval Completion
  | 0, _ => throw .tooDeep
  | n + 1, s =>
    Runner.executeNode settings ⟨evaluateViewed settings view n, executeViewed settings view n⟩ (s.through view)

end

/-- The runner for whole programs under a view. -/
def Settings.viewer (settings : Settings) (view : View) : Runner where
  evaluate := evaluateViewed settings view settings.nesting
  execute := executeViewed settings view settings.nesting

/-- Runs the statements of a program under a view. -/
def Machine.runViewed (settings : Settings) (view : View) (program : List (Stmt Hops)) (m : Machine) :
    Option Stop × Machine :=
  match (settings.viewer view).executeAll program m with
  | (.ok _, m) => (none, m)
  | (.error stop, m) => (some stop, m)

/-! ## Operators, functions and classes

None of these looks at a note. Code is carried along in values, with its notes changed. -/

open Eval

variable {f : View}

namespace Eval

theorem unary_carries (operator : Token) (right : Value) :
    Carries (·.mapNotes f) (·.mapNotes f) (unary operator right) (unary operator (right.mapNotes f)) := by
  unfold unary
  rw [Value.isTruthy_mapNotes]
  split
  · exact .pure rfl
  · cases right with
    | number x => exact .pure rfl
    | _ => exact .fail _ _
  · exact .throw _

/-- Numbers and strings have no notes. -/
theorem add_carries (operator : Token) (left right : Value) :
    Carries (·.mapNotes f) (·.mapNotes f) (add operator left right)
      (add operator (left.mapNotes f) (right.mapNotes f)) := by
  cases left with
  | number x =>
    cases right with
    | number y => exact .pure rfl
    | _ => exact .fail _ _
  | string s =>
    cases right with
    | string t => exact .pure rfl
    | _ => exact .fail _ _
  | _ => exact .fail _ _

theorem arithmetic_carries (operator : Token) (x y : Float) :
    Carries (·.mapNotes f) (·.mapNotes f) (arithmetic operator x y) (arithmetic operator x y) := by
  unfold arithmetic
  split
  all_goals first | exact .pure rfl | exact .throw _

/-- Equality compares addresses and plain values, so that notes in the bodies of functions play no part. -/
theorem binary_carries (operator : Token) (left right : Value) :
    Carries (·.mapNotes f) (·.mapNotes f) (binary operator left right)
      (binary operator (left.mapNotes f) (right.mapNotes f)) := by
  unfold binary
  rw [Value.equals_mapNotes]
  split
  · exact .pure rfl
  · exact .pure rfl
  · exact add_carries _ _ _
  · cases left with
    | number x =>
      cases right with
      | number y => exact arithmetic_carries _ _ _
      | _ => exact .fail _ _
    | _ => exact .fail _ _

end Eval

/-- The function is made with the changed declaration. -/
theorem Closure.create_carries (declaration : FunDecl Hops) (env : Environment) (isInitializer : Bool) :
    Carries (·.mapNotes f) (·.mapNotes f) (Closure.create declaration env isInitializer)
      (Closure.create (declaration.mapNotes f) env isInitializer) :=
  (Carries.alloc .identity).bind fun _ => .pure rfl

/-- The instance is bound with its notes changed. -/
theorem Closure.bind_carries (c : Closure) (this : Value) :
    Carries (·.mapNotes f) (·.mapNotes f) (c.bind this) ((c.mapNotes f).bind (this.mapNotes f)) :=
  (Carries.alloc (.frame [("this", this)])).bind fun _ => Closure.create_carries _ _ _

section

variable {body body' : BodyRunner}
  (hbody : ∀ ss, Carries (·.mapNotes f) (·.mapNotes f) (body ss) (body' (Stmt.mapAllNotes f ss)))
include hbody

/-- The changed body runs on the changed arguments. -/
theorem Closure.call_carries (c : Closure) (arguments : List Value) :
    Carries (·.mapNotes f) (·.mapNotes f) (c.call body arguments)
      ((c.mapNotes f).call body' (arguments.map (·.mapNotes f))) := by
  have hframe : Carries (·.mapNotes f) id
      (Eval.alloc (.frame (.ofLists (c.declaration.params.map (·.lexeme)) arguments)))
      (Eval.alloc (.frame (.ofLists ((c.mapNotes f).declaration.params.map (·.lexeme))
        (arguments.map (·.mapNotes f))))) := by
    show Carries _ _ _ (Eval.alloc (.frame (.ofLists ((c.declaration.mapNotes f).params.map (·.lexeme)) _)))
    rw [FunDecl.params_mapNotes, Bindings.ofLists_map]
    exact .alloc _
  have hrun : Carries (·.mapNotes f) (·.mapNotes f) (body c.declaration.body)
      (body' (c.mapNotes f).declaration.body) := by
    show Carries _ _ _ (body' (c.declaration.mapNotes f).body)
    rw [FunDecl.body_mapNotes]
    exact hbody _
  -- an initializer gives the instance, which is read behind the body
  refine hframe.bind fun frame => hrun.within.bind fun completion => ?_
  show Carries _ _ (if c.isInitializer then _ else _) (if c.isInitializer then _ else _)
  split
  · exact .readAt _ _ _
  · cases completion <;> exact .pure rfl

/-- The initializer is found under the same name. -/
theorem Class.instantiate_carries (c : Class) (arguments : List Value) :
    Carries (·.mapNotes f) (·.mapNotes f) (c.instantiate body arguments)
      ((c.mapNotes f).instantiate body' (arguments.map (·.mapNotes f))) := by
  have hinitializer : (c.mapNotes f).initializer? = c.initializer?.map (·.mapNotes f) :=
    Class.findMethod?_mapNotes f c "init"
  refine (Carries.alloc (.fields [])).bind fun address => ?_
  rw [hinitializer]
  cases c.initializer? with
  | none => exact .pure rfl
  | some g =>
    refine (Closure.bind_carries g (.object ⟨address, c⟩)).bind fun bound => ?_
    exact (Closure.call_carries hbody bound arguments).bind fun _ => .pure rfl

theorem Value.call_carries (settings : Settings) (callee : Value) (arguments : List Value) :
    Carries (·.mapNotes f) (·.mapNotes f) (callee.call settings body arguments)
      ((callee.mapNotes f).call settings body' (arguments.map (·.mapNotes f))) := by
  cases callee with
  | function c => exact Closure.call_carries hbody c arguments
  | clock => exact .modifyGet fun _ => rfl
  | classValue c => exact Class.instantiate_carries hbody c arguments
  | nil | bool | number | string | object => exact .throw _

end

/-- A field or a method, under the same name on both sides. -/
theorem Instance.get_carries (i : Instance) (name : Token) :
    Carries (·.mapNotes f) (·.mapNotes f) (i.get name) (Instance.get ⟨i.address, i.origin.mapNotes f⟩ name) := by
  refine Carries.get fun m => ?_
  have hfield : ((m.mapNotes f).heap.fields i.address).get? name.lexeme
      = ((m.heap.fields i.address).get? name.lexeme).map (·.mapNotes f) := by
    show ((m.heap.mapValues (·.mapNotes f)).fields i.address).get? name.lexeme = _
    rw [Heap.fields_mapValues, Bindings.get?_mapValues]
  dsimp only
  -- a field hides a method of its name
  rw [hfield, Class.findMethod?_mapNotes]
  cases (m.heap.fields i.address).get? name.lexeme with
  | some v => exact .pure rfl
  | none =>
    cases i.origin.findMethod? name.lexeme with
    | some method => exact (Closure.bind_carries method (.object i)).map fun _ => rfl
    | none => exact .fail _ _

/-- If the view matches the change then the same distance is seen. -/
theorem Reference.through_mapNotes {view view' : View} (hview : ∀ note, view' (f note) = view note)
    (r : Reference Hops) : Reference.through view' ⟨r.name, f r.note⟩ = r.through view :=
  congrArg (Reference.mk r.name) (hview r.note)

/-! ## The rules

A reference is seen through the view, and from there on it is a distance, on both sides the same one. -/

namespace Runner

/-- Two values are read by distance. -/
theorem superMethod_carries (keyword : Reference Hops) (method : Token) :
    Carries (·.mapNotes f) (·.mapNotes f) (superMethod keyword method) (superMethod keyword method) := by
  unfold superMethod
  cases keyword.note with
  | none => exact .throw _
  | some distance =>
    refine .get fun m => (Carries.readAt _ _ _).bind fun superclass => (Carries.readAt _ _ _).bind fun this => ?_
    cases superclass with
    | classValue c =>
      simp only [Value.mapNotes, Class.findMethod?_mapNotes]
      cases c.findMethod? method.lexeme with
      | some g => exact (Closure.bind_carries g this).map fun _ => rfl
      | none => exact .fail _ _
    | _ => exact .throw _

/-- The superclass is read like a variable. -/
theorem parentOf_carries (heritage : Option (Reference Hops)) :
    Carries (·.mapNotes f) (Option.map (·.mapNotes f)) (parentOf heritage) (parentOf heritage) := by
  cases heritage with
  | none => exact .pure rfl
  | some reference =>
    have hclass : Carries (·.mapNotes f) (·.mapNotes f) (superclass reference) (superclass reference) := by
      refine (Carries.lookUp reference).bind fun v => ?_
      cases v with
      | classValue c => exact .pure rfl
      | _ => exact .fail _ _
    exact hclass.map fun _ => rfl

/-- Methods are made with their notes changed. -/
theorem createMethods_carries (env : Environment) (ds : List (FunDecl Hops)) (methods : Bindings Closure) :
    Carries (·.mapNotes f) (Bindings.mapValues (·.mapNotes f)) (createMethods env ds methods)
      (createMethods env (FunDecl.mapAllNotes f ds) (methods.mapValues (·.mapNotes f))) := by
  induction ds generalizing methods with
  | nil => exact .pure rfl
  | cons d ds ih =>
    rw [FunDecl.mapAllNotes, createMethods, createMethods, FunDecl.name_mapNotes]
    refine (Closure.create_carries d env _).bind fun g => ?_
    rw [Bindings.put_mapValues]
    exact ih _

theorem declareClass_carries (name : Token) (heritage : Option (Reference Hops)) (methods : List (FunDecl Hops)) :
    Carries (·.mapNotes f) id (declareClass name heritage methods)
      (declareClass name heritage (FunDecl.mapAllNotes f methods)) := by
  rw [declareClass_eq, declareClass_eq]
  refine (parentOf_carries heritage).bind fun parent => (Carries.declare name .nil).bind fun _ => .get fun m => ?_
  have hscope : Carries (·.mapNotes f) id (methodScope m.environment parent)
      (methodScope m.environment (parent.map (·.mapNotes f))) := by
    cases parent with
    | none => exact .pure rfl
    | some c => exact (Carries.alloc (.frame [("super", .classValue c)])).map fun _ => rfl
  refine hscope.bind fun inner => (createMethods_carries inner methods []).bind fun made => ?_
  refine (Carries.alloc .identity).bind fun address => ?_
  cases parent <;> exact .assign _ name (.classValue ⟨⟨address, name.lexeme, made⟩, _⟩)

/-! ### Expressions and statements

By the forms of the tree, with matching views on both sides. -/

/-- The second runner does on changed code what the first one does on the code. -/
structure Carries (f : View) (run run' : Runner) : Prop where
  evaluate : ∀ e, Eval.Carries (·.mapNotes f) (·.mapNotes f) (run.evaluate e) (run'.evaluate (e.mapNotes f))
  execute : ∀ s, Eval.Carries (·.mapNotes f) (·.mapNotes f) (run.execute s) (run'.execute (s.mapNotes f))

variable {run run' : Runner} (hrun : run.Carries f run')
include hrun

theorem evaluateAll_carries (es : List (Expr Hops)) :
    Eval.Carries (·.mapNotes f) (List.map (·.mapNotes f)) (run.evaluateAll es)
      (run'.evaluateAll (Expr.mapNotes.mapAll f es)) := by
  induction es with
  | nil => exact .pure rfl
  | cons e es ih => exact (hrun.evaluate e).bind fun v => ih.bind fun _ => .pure rfl

theorem evaluateOption_carries (e? : Option (Expr Hops)) :
    Eval.Carries (·.mapNotes f) (·.mapNotes f) (run.evaluateOption e?)
      (run'.evaluateOption (e?.map (·.mapNotes f))) := by
  cases e? with
  | none => exact .pure rfl
  | some e => exact hrun.evaluate e

theorem executeAll_carries (ss : List (Stmt Hops)) :
    Eval.Carries (·.mapNotes f) (·.mapNotes f) (run.executeAll ss) (run'.executeAll (Stmt.mapAllNotes f ss)) := by
  induction ss with
  | nil => exact .pure rfl
  | cons s ss ih =>
    rw [Stmt.mapAllNotes]
    refine (hrun.execute s).bind fun completion => ?_
    cases completion with
    | returning v => exact .pure rfl
    | completed => exact ih

/-- Callee and arguments are checked in the same way. -/
theorem call_carries (settings : Settings) (paren : Token) (callee : Value) (arguments : List Value) :
    Eval.Carries (·.mapNotes f) (·.mapNotes f) (run.call settings paren callee arguments)
      (run'.call settings paren (callee.mapNotes f) (arguments.map (·.mapNotes f))) := by
  unfold call
  rw [Value.arity?_mapNotes, List.length_map]
  split
  · exact .fail _ _
  · split
    · exact (Value.call_carries (executeAll_carries hrun) settings callee arguments).overflowAt
    · exact .fail _ _

variable {view view' : View} (hview : ∀ note, view' (f note) = view note)
include hview

/-- Where two views see the same notes, an expression has the same values through both, up to the notes in functions
that it makes. Only references look at their notes. -/
theorem evaluateNode_carries (settings : Settings) (e : Expr Hops) :
    Eval.Carries (·.mapNotes f) (·.mapNotes f) (run.evaluateNode settings (e.through view))
      (run'.evaluateNode settings ((e.mapNotes f).through view')) := by
  -- the view is looked through at a name that is read or assigned to; all else is put together
  cases e with
  | assign target value =>
    rw [Expr.mapNotes, Expr.through, Expr.through, Reference.through_mapNotes hview]
    exact (hrun.evaluate value).bind fun v => (Eval.Carries.assignTo _ v).bind fun _ => .pure rfl
  | binary left operator right =>
    exact (hrun.evaluate left).bind fun l => (hrun.evaluate right).bind fun r => binary_carries operator l r
  | call callee paren arguments =>
    refine (hrun.evaluate callee).bind fun g => (evaluateAll_carries hrun arguments).bind fun vs => ?_
    exact call_carries hrun settings paren g vs
  | get object name =>
    refine (hrun.evaluate object).bind fun v => ?_
    cases v with
    | object i => exact Instance.get_carries i name
    | _ => exact .fail _ _
  | grouping inner => exact hrun.evaluate inner
  | literal value =>
    refine .pure ?_
    cases value <;> rfl
  | logical left operator right =>
    refine (hrun.evaluate left).bind fun l => ?_
    rw [Value.isTruthy_mapNotes]
    split
    · exact .pure rfl
    · exact hrun.evaluate right
  | set object name value =>
    refine (hrun.evaluate object).bind fun o => ?_
    cases o with
    | object i =>
      exact (hrun.evaluate value).bind fun v => (Eval.Carries.setField i.address name.lexeme v).bind fun _ => .pure rfl
    | _ => exact .fail _ _
  | super keyword method =>
    rw [Expr.mapNotes, Expr.through, Expr.through, Reference.through_mapNotes hview]
    exact superMethod_carries _ _
  | this keyword =>
    rw [Expr.mapNotes, Expr.through, Expr.through, Reference.through_mapNotes hview]
    exact .lookUp _
  | unary operator right => exact (hrun.evaluate right).bind fun r => unary_carries operator r
  | «variable» reference =>
    rw [Expr.mapNotes, Expr.through, Expr.through, Reference.through_mapNotes hview]
    exact .lookUp _
  | unknown => exact .throw _

/-- A statement behaves alike through both views, up to the notes in functions and classes that it declares. -/
theorem executeNode_carries (settings : Settings) (s : Stmt Hops) :
    Eval.Carries (·.mapNotes f) (·.mapNotes f) (run.executeNode settings (s.through view))
      (run'.executeNode settings ((s.mapNotes f).through view')) := by
  cases s with
  | block body =>
    exact (Eval.Carries.alloc (.frame [])).bind fun frame => .get fun m => (executeAll_carries hrun body).within
  | expression value => exact (hrun.evaluate value).bind fun _ => .pure rfl
  | function declaration =>
    refine Eval.Carries.get fun m => (Closure.create_carries declaration m.environment false).bind fun g => ?_
    rw [FunDecl.name_mapNotes]
    exact (Eval.Carries.declare declaration.name (.function g)).bind fun _ => .pure rfl
  | «class» name heritage methods =>
    have hheritage : (heritage.map fun r => (⟨r.name, f r.note⟩ : Reference Hops)).map (·.through view')
        = heritage.map (·.through view) := by
      cases heritage with
      | none => rfl
      | some r => exact congrArg some (Reference.through_mapNotes hview r)
    rw [Stmt.mapNotes, Stmt.through, Stmt.through, hheritage]
    exact (declareClass_carries name _ methods).bind fun _ => .pure rfl
  | «if» condition thenBranch elseBranch =>
    cases elseBranch with
    | none =>
      refine (hrun.evaluate condition).bind fun v => ?_
      rw [Value.isTruthy_mapNotes]
      split
      · exact hrun.execute thenBranch
      · exact .pure rfl
    | some s =>
      refine (hrun.evaluate condition).bind fun v => ?_
      rw [Value.isTruthy_mapNotes]
      split
      · exact hrun.execute thenBranch
      · exact hrun.execute s
  | print value =>
    refine (hrun.evaluate value).bind fun v => ?_
    rw [Value.text_mapNotes]
    exact (Eval.Carries.print v.text).bind fun _ => .pure rfl
  | «return» keyword value => exact (evaluateOption_carries hrun value).bind fun _ => .pure rfl
  | var name initializer =>
    exact (evaluateOption_carries hrun initializer).bind fun v => (Eval.Carries.declare name v).bind fun _ => .pure rfl
  | «while» condition body =>
    -- whether the loop goes on is all that is known of the condition's value
    refine .repeatWhile ?_ (hrun.execute body) rfl (fun v => ⟨_, rfl⟩) settings.rounds
    exact (hrun.evaluate condition).map fun v => (Value.isTruthy_mapNotes f v).symm
  | unknown => exact .throw _

end Runner

/-! ## Every depth

Both runs have one bound, and the view is the same at every depth. -/

section

variable {view view' : View} (hview : ∀ note, view' (f note) = view note)
include hview

theorem nested_carries (settings : Settings) (n : Nat) :
    Runner.Carries f ⟨evaluateViewed settings view n, executeViewed settings view n⟩
      ⟨evaluateViewed settings view' n, executeViewed settings view' n⟩ := by
  induction n with
  | zero => exact ⟨fun _ => .throw _, fun _ => .throw _⟩
  | succ n ih =>
    exact ⟨fun e => Runner.evaluateNode_carries ih hview settings e,
      fun s => Runner.executeNode_carries ih hview settings s⟩

/-- With other notes, and a view that matches them, a program does what it did. -/
theorem Machine.runViewed_mapNotes (settings : Settings) (program : List (Stmt Hops)) (m : Machine) :
    (m.mapNotes f).runViewed settings view' (Stmt.mapAllNotes f program)
      = ((m.runViewed settings view program).1, (m.runViewed settings view program).2.mapNotes f) := by
  have hall := Runner.executeAll_carries (nested_carries hview settings settings.nesting) program m
  change (settings.viewer view').executeAll _ _ = Eval.carriedOutcome _ _ ((settings.viewer view).executeAll _ _) at hall
  unfold Machine.runViewed
  rw [hall]
  rcases (settings.viewer view).executeAll program m with ⟨stop | completion, m'⟩ <;> rfl

end

/-- Seen as they are, notes are distances. -/
theorem viewed_id (settings : Settings) (n : Nat) :
    evaluateViewed settings id n = evaluateNested settings n ∧
      executeViewed settings id n = executeNested settings n := by
  have hreference : ∀ r : Reference Hops, r.through id = r := fun _ => rfl
  induction n with
  | zero => exact ⟨rfl, rfl⟩
  | succ n ih =>
    constructor
    · funext e
      rw [evaluateViewed, evaluateNested, ih.1, ih.2]
      cases e <;> rfl
    · funext s
      rw [executeViewed, executeNested, ih.1, ih.2]
      cases s with
      -- a class refers to a superclass, if it has one
      | «class» name heritage methods =>
        rw [Stmt.through, funext hreference, Option.map_id']
      | _ => rfl

/-- Without a view, notes are distances. -/
theorem Machine.runViewed_id (settings : Settings) (program : List (Stmt Hops)) (m : Machine) :
    m.runViewed settings id program = m.run settings program := by
  have hrunner : settings.viewer id = settings.runner :=
    congrArg₂ Runner.mk (viewed_id settings settings.nesting).1 (viewed_id settings settings.nesting).2
  have hall : (settings.viewer id).executeAll program m = settings.runner.executeAll program m := by rw [hrunner]
  unfold Machine.runViewed Machine.run
  rcases hrun : settings.runner.executeAll program m with ⟨stop | completion, m'⟩
  all_goals
    rw [hrun] at hall
    rw [hall]

end LoxLang
