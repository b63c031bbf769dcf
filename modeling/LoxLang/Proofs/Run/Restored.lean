import LoxLang.Proofs.Run.Outcomes
import LoxLang.Proofs.Run.Sessions

/-!
# The current environment is restored

However a run ends, with a value, a `return` or any sort of stop, it leaves the machine in the environment it began
in. No machine is left out: the heap may be any, and so may the notes of the tree, or there may be none.

* **`Eval.Restores`** — a run leaves the environment as it was.
* **`Runner.declareClassUnguarded`** — a class declaration that goes into the frame of `super` and back by steps of its
  own. Nothing would bring it back if it stopped on the way.
* **`environment_restored`** — the statement for expressions, statements, whole runs and sessions.

Blocks and calls are restored by `Eval.within`, whatever happens inside. What is left to show is that a class
declaration cannot stop between its two steps.
-/

namespace LoxLang

/-! ## Going by hand

An evaluator that differs in its class declarations: these change the current environment by assignments to it. That
the old environment is back cannot be seen from the form of such a rule; it has to be argued. -/

namespace Runner

/-- Goes into a new frame that binds `super`, if there is a superclass. -/
def enterSuper (parent : Option Class) : Eval Unit := do
  if let some c := parent then
    let frame ← Eval.alloc (.frame [])
    modify fun m => { m with environment := frame :: m.environment }
    Eval.define frame "super" (.classValue c)

/-- Goes one frame out again, if there is a superclass. -/
def leaveSuper (parent : Option Class) : Eval Unit := do
  if parent.isSome then
    modify fun m => { m with environment := m.environment.tail }

/-- The methods of a class, made in the current environment. -/
def createMethodsHere : List (FunDecl Hops) → Bindings Closure → Eval (Bindings Closure)
  | [], methods => return methods
  | d :: ds, methods => do
    let name := d.name.lexeme
    let f ← Closure.create d (← get).environment (name == "init")
    createMethodsHere ds (methods.put name f)

/-- Declares a class. The current environment is the frame of `super` while the methods are made, and no more than
the step back leads out of it. -/
def declareClassUnguarded (name : Token) (heritage : Option (Reference Hops)) (methods : List (FunDecl Hops)) :
    Eval Unit := do
  let parent ← parentOf heritage
  Eval.declare name .nil
  enterSuper parent
  let methods ← createMethodsHere methods []
  let own : ClassLayer := ⟨← Eval.alloc .identity, name.lexeme, methods⟩
  leaveSuper parent
  let inherited := parent.elim [] fun c => c.own :: c.inherited
  Eval.assign (← get).environment name (.classValue ⟨own, inherited⟩)

/-- The rules for statements, with class declarations that go by hand. -/
def executeUnguardedNode (settings : Settings) (run : Runner) : Stmt Hops → Eval Completion
  | .class name heritage methods => do
    declareClassUnguarded name heritage methods
    return .completed
  | s => executeNode settings run s

end Runner

mutual

/-- Evaluates an expression with at most `n` levels of nesting; class declarations go by hand. -/
def evaluateUnguarded (settings : Settings) : Nat → Expr Hops → Eval Value
  | 0, _ => throw .tooDeep
  | n + 1, e => Runner.evaluateNode settings ⟨evaluateUnguarded settings n, executeUnguarded settings n⟩ e

/-- Executes a statement with at most `n` levels of nesting; class declarations go by hand. -/
def executeUnguarded (settings : Settings) : Nat → Stmt Hops → Eval Completion
  | 0, _ => throw .tooDeep
  | n + 1, s => Runner.executeUnguardedNode settings ⟨evaluateUnguarded settings n, executeUnguarded settings n⟩ s

end

/-! ## There and back

The argument: between the step in and the step out methods are made, and making methods cannot stop. -/

/-- A name that is bound in a new frame might as well have been bound there from the first. -/
theorem Heap.define_alloc (h : Heap) (vars : Bindings Value) (name : String) (v : Value) :
    (h.alloc (.frame vars)).2.define h.cells.size name v = (h.alloc (.frame (vars.put name v))).2 := by
  apply congrArg Heap.mk
  apply Array.ext_getElem?
  intro a
  show ((h.cells.push (.frame vars)).modify h.cells.size _)[a]? = (h.cells.push (.frame (vars.put name v)))[a]?
  rw [Array.getElem?_modify, Array.getElem?_push, Array.getElem?_push]
  by_cases ha : a = h.cells.size
  · rw [if_pos ha.symm, if_pos ha, if_pos ha]
    rfl
  · rw [if_neg fun heq => ha heq.symm, if_neg ha, if_neg ha]

namespace Runner

/-- Making methods cannot stop: it only allocates, and takes no notice of the current environment. -/
theorem createMethods_completes (env : Environment) (ds : List (FunDecl Hops)) (methods : Bindings Closure)
    (h : Heap) :
    ∃ made h', ∀ m : Machine, m.heap = h → createMethods env ds methods m = (.ok made, { m with heap := h' }) := by
  induction ds generalizing methods h with
  | nil =>
    refine ⟨methods, h, fun m hm => ?_⟩
    subst hm
    rfl
  | cons d ds ih =>
    -- the heap grows by one cell for each method
    let f : Closure := ⟨(h.alloc .identity).1, d, env, d.name.lexeme == "init"⟩
    obtain ⟨made, h', hrest⟩ := ih (methods.put d.name.lexeme f) (h.alloc .identity).2
    refine ⟨made, h', fun m hm => ?_⟩
    subst hm
    exact hrest { m with heap := (m.heap.alloc .identity).2 } rfl

/-- In its own environment a machine makes the methods that are made in an environment that is given. -/
theorem createMethodsHere_apply (ds : List (FunDecl Hops)) (methods : Bindings Closure) (m : Machine) :
    createMethodsHere ds methods m = createMethods m.environment ds methods m := by
  induction ds generalizing methods m with
  | nil => rfl
  | cons d ds ih => exact ih _ { m with heap := (m.heap.alloc .identity).2 }

/-- Going by hand comes to the same: nothing stops between the two steps. -/
theorem declareClassUnguarded_eq (name : Token) (heritage : Option (Reference Hops))
    (methods : List (FunDecl Hops)) :
    declareClassUnguarded name heritage methods = declareClass name heritage methods := by
  have hrest : ∀ (parent : Option Class) (m : Machine),
      (enterSuper parent >>= fun _ => createMethodsHere methods [] >>= fun made =>
          Eval.alloc .identity >>= fun address => leaveSuper parent >>= fun _ => get >>= fun m : Machine =>
            Eval.assign m.environment name
              (.classValue ⟨⟨address, name.lexeme, made⟩, parent.elim [] fun c => c.own :: c.inherited⟩)) m
        = (methodScope m.environment parent >>= fun inner => createMethods inner methods [] >>= fun made =>
            finishClass m.environment name parent made) m := by
    intro parent m
    cases parent with
    | none =>
      show (createMethodsHere methods [] >>= _) m = (createMethods m.environment methods [] >>= _) m
      obtain ⟨made, h', hmade⟩ := createMethods_completes m.environment methods [] m.heap
      rw [Eval.bind_apply, Eval.bind_apply, createMethodsHere_apply, hmade m rfl]
      rfl
    | some c =>
      -- the machine in the frame of `super`
      let inner : Environment := m.heap.cells.size :: m.environment
      let m' : Machine := { m with heap := (m.heap.alloc (.frame [("super", .classValue c)])).2, environment := inner }
      have henter : enterSuper (some c) m = (.ok (), m') :=
        congrArg (fun h => (Except.ok (), ({ m with heap := h, environment := inner } : Machine)))
          (Heap.define_alloc m.heap [] "super" (.classValue c))
      obtain ⟨made, h', hmade⟩ := createMethods_completes inner methods []
        (m.heap.alloc (.frame [("super", .classValue c)])).2
      have hscope : methodScope m.environment (some c) m
          = (.ok inner, { m with heap := (m.heap.alloc (.frame [("super", .classValue c)])).2 }) := rfl
      rw [Eval.bind_apply, henter, Eval.bind_apply, hscope]
      dsimp only
      rw [Eval.bind_apply, Eval.bind_apply, createMethodsHere_apply, hmade m' rfl, hmade _ rfl]
      rfl
  rw [declareClass_eq]
  funext m
  show (parentOf heritage >>= fun parent => Eval.declare name .nil >>= fun _ => _) m = _
  rw [Eval.bind_apply, Eval.bind_apply]
  rcases parentOf heritage m with ⟨stop | parent, m₁⟩
  · rfl
  · show (Eval.declare name .nil >>= fun _ => _) m₁ = (Eval.declare name .nil >>= fun _ => _) m₁
    rw [Eval.bind_apply, Eval.bind_apply]
    rcases Eval.declare name .nil m₁ with ⟨stop | _, m₂⟩
    · rfl
    · exact hrest parent m₂

/-- The other statements are the same on both sides. -/
theorem executeUnguardedNode_eq (settings : Settings) (run : Runner) :
    executeUnguardedNode settings run = executeNode settings run := by
  funext s
  cases s with
  | «class» name heritage methods =>
    exact congrArg (fun act : Eval Unit => act >>= fun _ => pure Completion.completed)
      (declareClassUnguarded_eq name heritage methods)
  | _ => rfl

end Runner

/-- The evaluator in which class declarations go by hand is the evaluator. -/
theorem unguarded_eq_nested (settings : Settings) (n : Nat) :
    evaluateUnguarded settings n = evaluateNested settings n ∧
      executeUnguarded settings n = executeNested settings n := by
  induction n with
  | zero => exact ⟨rfl, rfl⟩
  | succ n ih =>
    constructor
    · funext e
      rw [evaluateUnguarded, evaluateNested, ih.1, ih.2]
    · funext s
      rw [executeUnguarded, executeNested, ih.1, ih.2, Runner.executeUnguardedNode_eq]

/-! ## Runs that restore

The property is asked for on all machines and for all ends of a run, so it composes without any condition. -/

/-- On every machine a run ends in the environment it began in, with or without a result. -/
def Eval.Restores {α : Type} (act : Eval α) : Prop :=
  ∀ m, (act m).2.environment = m.environment

namespace Eval

variable {α β : Type} {act : Eval α} {f : α → Eval β}

namespace Restores

theorem pure (a : α) : Restores (pure a : Eval α) :=
  fun _ => rfl

/-- A run that stops at once has gone nowhere. -/
theorem throw (stop : Stop) : Restores (throw stop : Eval α) :=
  fun _ => rfl

/-- A mistake that is reported has gone nowhere either. -/
theorem fail (cause : Cause) (token : Token) : Restores (fail cause token : Eval α) :=
  fun _ => rfl

/-- From the first environment to the same one, and from there once more. -/
theorem bind (h : Restores act) (hf : ∀ a, Restores (f a)) : Restores (act >>= f) := by
  intro m
  have hm := h m
  rw [bind_apply]
  revert hm
  rcases act m with ⟨stop | a, m'⟩
  · exact id
  · exact fun hm => (hf a m').trans hm

/-- The result is changed and the machine is not. -/
theorem map (g : α → β) (h : Restores act) : Restores (g <$> act) := by
  rw [map_eq_pure_bind]
  exact h.bind fun _ => .pure _

/-- Whatever the machine is that is looked at. -/
theorem get {f : Machine → Eval β} (h : ∀ m, Restores (f m)) : Restores (MonadState.get >>= f) :=
  fun m => h m m

/-- A change of the heap, the printed lines or the clock. -/
theorem modifyGet {g : Machine → α × Machine} (h : ∀ m, (g m).2.environment = m.environment) :
    Restores (modifyGet g : Eval α) :=
  h

/-- A value or a fault, and the machine as it was. -/
theorem ofExcept (r : Except Fault α) : Restores (ofExcept r) := by
  cases r <;> exact fun _ => rfl

/-- Whatever happens in between, the old environment is back afterwards. -/
theorem within (env : Environment) (act : Eval α) : Restores (within env act) :=
  fun _ => rfl

/-- Only the reason to stop is changed. -/
theorem overflowAt {token : Token} (h : Restores act) : Restores (overflowAt token act) := by
  intro m
  have hm := h m
  unfold Eval.overflowAt
  revert hm
  rcases act m with ⟨result, m'⟩
  match result with
  | .ok a | .error (.error d) | .error (.fault _) | .error .tooLong | .error .tooDeep => exact id

/-! ### Variables

Variables live on the heap, and no access to them moves the current environment. -/

theorem alloc (c : Cell) : Restores (alloc c) :=
  modifyGet fun _ => rfl

theorem define (a : Address) (name : String) (v : Value) : Restores (define a name v) :=
  modifyGet fun _ => rfl

theorem setField (a : Address) (name : String) (v : Value) : Restores (setField a name v) :=
  modifyGet fun _ => rfl

/-- The search goes through the environment that is given. -/
theorem read (env : Environment) (name : Token) : Restores (read env name) := by
  refine get fun m => ?_
  cases env.get? m.heap name.lexeme with
  | none => exact fail _ _
  | some v => exact pure v

/-- The frame that binds the name is changed. -/
theorem assign (env : Environment) (name : Token) (v : Value) : Restores (assign env name v) := by
  refine get fun m => ?_
  cases env.holder? m.heap name.lexeme with
  | none => exact fail _ _
  | some a => exact define _ _ _

theorem readAt (env : Environment) (distance : Nat) (name : String) : Restores (readAt env distance name) :=
  get fun _ => ofExcept _

/-- The frame at the distance is changed. -/
theorem assignAt (env : Environment) (distance : Nat) (name : String) (v : Value) :
    Restores (assignAt env distance name v) :=
  (ofExcept _).bind fun _ => define _ _ _

theorem declare (name : Token) (v : Value) : Restores (declare name v) := by
  refine get fun m => ?_
  cases m.environment with
  | nil => exact pure ()
  | cons a env => exact define _ _ _

theorem still {act : Eval Value} (h : Still act) : Restores act := by
  cases h with
  | value _ => exact pure _
  | stop _ => exact throw _

end Restores

end Eval

open Eval

/-! ## Functions, classes and instances

For calls no assumption about the body is needed: it runs within another environment, and `Eval.within` brings the old
one back whatever the body does. -/

/-- To make a function is to allocate. -/
theorem Closure.create_restores (declaration : FunDecl Hops) (env : Environment) (isInitializer : Bool) :
    Restores (Closure.create declaration env isInitializer) :=
  (Restores.alloc _).bind fun _ => .pure _

/-- To bind a method is to allocate a frame for `this` and to make a function. -/
theorem Closure.bind_restores (f : Closure) (this : Value) : Restores (f.bind this) :=
  (Restores.alloc _).bind fun _ => Closure.create_restores _ _ _

/-- A call comes back from any body. -/
theorem Closure.call_restores (body : BodyRunner) (f : Closure) (arguments : List Value) :
    Restores (f.call body arguments) := by
  refine (Restores.alloc _).bind fun frame => (Restores.within _ _).bind fun completion => ?_
  split
  · exact .readAt _ _ _
  · cases completion <;> exact .pure _

/-- A new instance, and a call of the initializer. -/
theorem Class.instantiate_restores (body : BodyRunner) (c : Class) (arguments : List Value) :
    Restores (c.instantiate body arguments) := by
  refine (Restores.alloc _).bind fun address => ?_
  dsimp only
  split
  · exact (Closure.bind_restores _ _).bind fun g => (Closure.call_restores body g arguments).bind fun _ => .pure _
  · exact .pure _

theorem Value.call_restores (settings : Settings) (body : BodyRunner) (callee : Value) (arguments : List Value) :
    Restores (callee.call settings body arguments) := by
  cases callee with
  | function f => exact Closure.call_restores body f arguments
  | clock => exact .modifyGet fun _ => rfl
  | classValue c => exact Class.instantiate_restores body c arguments
  | nil | bool | number | string | object => exact .throw _

/-- A field that is read or a method that is bound. -/
theorem Instance.get_restores (i : Instance) (name : Token) : Restores (i.get name) := by
  refine Restores.get fun m => ?_
  cases (m.heap.fields i.address).get? name.lexeme with
  | some v => exact .pure v
  | none =>
    dsimp only
    cases i.origin.findMethod? name.lexeme with
    | some method => exact (Closure.bind_restores _ _).map _
    | none => exact .fail _ _

/-! ## The rules

A step of the evaluator restores the environment if the runs of its parts do. -/

/-- A runner whose runs restore the environment. -/
structure Runner.Restores (run : Runner) : Prop where
  evaluate : ∀ e, Eval.Restores (run.evaluate e)
  execute : ∀ s, Eval.Restores (run.execute s)

namespace Runner

variable {run : Runner}

theorem lookUp_restores (reference : Reference Hops) : Eval.Restores (lookUp reference) := by
  unfold lookUp
  cases reference.note with
  | none => exact .read _ _
  | some distance => exact .get fun _ => .readAt _ _ _

theorem assign_restores (target : Reference Hops) (v : Value) : Eval.Restores (assign target v) := by
  unfold assign
  cases target.note with
  | none => exact .assign _ _ _
  | some distance => exact .get fun _ => .assignAt _ _ _ _

/-- A call restores the environment by itself; the checks before it do nothing. -/
theorem call_restores (settings : Settings) (run : Runner) (paren : Token) (callee : Value)
    (arguments : List Value) : Eval.Restores (run.call settings paren callee arguments) := by
  unfold call
  split
  · exact .fail _ _
  · split
    · exact (Value.call_restores settings run.executeAll callee arguments).overflowAt
    · exact .fail _ _

/-- Two values are read by distance and a method is bound. -/
theorem superMethod_restores (keyword : Reference Hops) (method : Token) :
    Eval.Restores (superMethod keyword method) := by
  unfold superMethod
  cases keyword.note with
  | none => exact .throw _
  | some distance =>
    refine .get fun m => (Restores.readAt _ _ _).bind fun superclass => (Restores.readAt _ _ _).bind fun this => ?_
    cases superclass with
    | classValue c =>
      dsimp only
      cases c.findMethod? method.lexeme with
      | some f => exact (Closure.bind_restores _ _).map _
      | none => exact .fail _ _
    | _ => exact .throw _

/-- A value is read and looked at. -/
theorem superclass_restores (reference : Reference Hops) : Eval.Restores (superclass reference) := by
  refine (lookUp_restores reference).bind fun v => ?_
  cases v with
  | classValue c => exact .pure c
  | _ => exact .fail _ _

theorem createMethods_restores (env : Environment) (ds : List (FunDecl Hops)) (methods : Bindings Closure) :
    Eval.Restores (createMethods env ds methods) := by
  intro m
  obtain ⟨made, h', hmade⟩ := createMethods_completes env ds methods m.heap
  rw [hmade m rfl]

/-- The methods are made for the environment of `super` without going there. -/
theorem declareClass_restores (name : Token) (heritage : Option (Reference Hops)) (methods : List (FunDecl Hops)) :
    Eval.Restores (declareClass name heritage methods) := by
  have hparent : Eval.Restores (parentOf heritage) := by
    cases heritage with
    | none => exact .pure none
    | some reference => exact (superclass_restores reference).map some
  have hscope : ∀ env parent, Eval.Restores (methodScope env parent) := by
    intro env parent
    cases parent with
    | none => exact .pure env
    | some c => exact (Restores.alloc _).map _
  rw [declareClass_eq]
  refine hparent.bind fun parent => (Restores.declare _ _).bind fun _ => .get fun m => ?_
  refine (hscope _ _).bind fun inner => (createMethods_restores _ _ _).bind fun methods => ?_
  exact (Restores.alloc _).bind fun _ => .assign _ _ _

/-- By induction on the bound on rounds. -/
theorem repeatWhile_restores {test : Eval Bool} {body : Eval Completion} (htest : Eval.Restores test)
    (hbody : Eval.Restores body) (rounds : Nat) : Eval.Restores (repeatWhile test body rounds) := by
  induction rounds with
  | zero => exact .throw _
  | succ rounds ih =>
    refine htest.bind fun b => ?_
    cases b with
    | false => exact .pure _
    | true =>
      refine hbody.bind fun completion => ?_
      cases completion with
      | returning v => exact .pure _
      | completed => exact ih

/-! ### Expressions and statements

By the forms of the tree. Only blocks and calls change the environment at all. -/

variable (hrun : run.Restores)
include hrun

theorem evaluateAll_restores (es : List (Expr Hops)) : Eval.Restores (run.evaluateAll es) := by
  induction es with
  | nil => exact .pure []
  | cons e es ih => exact (hrun.evaluate e).bind fun v => ih.bind fun _ => .pure _

theorem evaluateOption_restores (e? : Option (Expr Hops)) : Eval.Restores (run.evaluateOption e?) := by
  cases e? with
  | none => exact .pure _
  | some e => exact hrun.evaluate e

theorem executeAll_restores (ss : List (Stmt Hops)) : Eval.Restores (run.executeAll ss) := by
  induction ss with
  | nil => exact .pure _
  | cons s ss ih =>
    refine (hrun.execute s).bind fun completion => ?_
    cases completion with
    | returning v => exact .pure _
    | completed => exact ih

/-- Expressions leave the environment alone. Calls change it for their bodies, and put it back however a body ends. -/
theorem evaluateNode_restores (settings : Settings) (e : Expr Hops) :
    Eval.Restores (evaluateNode settings run e) := by
  cases e with
  | assign target value =>
    exact (hrun.evaluate value).bind fun v => (assign_restores target v).bind fun _ => .pure v
  | binary left operator right =>
    exact (hrun.evaluate left).bind fun l => (hrun.evaluate right).bind fun r => .still (binary_still _ _ _)
  | call callee paren arguments =>
    refine (hrun.evaluate callee).bind fun f => (evaluateAll_restores hrun arguments).bind fun vs => ?_
    exact call_restores settings run paren f vs
  | get object name =>
    refine (hrun.evaluate object).bind fun v => ?_
    cases v with
    | object i => exact Instance.get_restores i name
    | _ => exact .fail _ _
  | grouping inner => exact hrun.evaluate inner
  | literal value => exact .pure _
  | logical left operator right =>
    refine (hrun.evaluate left).bind fun l => ?_
    split
    · exact .pure l
    · exact hrun.evaluate right
  | set object name value =>
    refine (hrun.evaluate object).bind fun o => ?_
    cases o with
    | object i => exact (hrun.evaluate value).bind fun v => (Restores.setField _ _ _).bind fun _ => .pure v
    | _ => exact .fail _ _
  | super keyword method => exact superMethod_restores keyword method
  | this keyword => exact lookUp_restores keyword
  | unary operator right => exact (hrun.evaluate right).bind fun r => .still (unary_still _ _)
  | «variable» reference => exact lookUp_restores reference
  | unknown => exact .throw _

/-- By the form of the statement; a block runs within its frame. -/
theorem executeNode_restores (settings : Settings) (s : Stmt Hops) :
    Eval.Restores (executeNode settings run s) := by
  -- only a block changes the environment, and `Eval.within` puts it back
  cases s with
  | block body => exact (Restores.alloc _).bind fun frame => .get fun m => .within _ _
  | expression value => exact (hrun.evaluate value).bind fun _ => .pure _
  | function declaration =>
    refine .get fun m => (Closure.create_restores _ _ _).bind fun f => ?_
    exact (Restores.declare _ _).bind fun _ => .pure _
  | «class» name heritage methods => exact (declareClass_restores _ _ _).bind fun _ => .pure _
  | «if» condition thenBranch elseBranch =>
    refine (hrun.evaluate condition).bind fun v => ?_
    split
    · exact hrun.execute thenBranch
    · cases elseBranch with
      | none => exact .pure _
      | some s => exact hrun.execute s
  | print value => exact (hrun.evaluate value).bind fun v => (Restores.modifyGet fun _ => rfl).bind fun _ => .pure _
  | «return» keyword value => exact (evaluateOption_restores hrun value).bind fun v => .pure _
  | var name initializer =>
    exact (evaluateOption_restores hrun initializer).bind fun v => (Restores.declare _ _).bind fun _ => .pure _
  | «while» condition body => exact repeatWhile_restores ((hrun.evaluate condition).map _) (hrun.execute body) _
  | unknown => exact .throw _

end Runner

/-! ## Every depth

The rules are about a runner that restores the environment; by induction the nested evaluators do. -/

theorem nested_restores (settings : Settings) (n : Nat) :
    Runner.Restores ⟨evaluateNested settings n, executeNested settings n⟩ := by
  induction n with
  | zero => exact ⟨fun _ => .throw _, fun _ => .throw _⟩
  | succ n ih =>
    exact ⟨fun e => Runner.evaluateNode_restores ih settings e, fun s => Runner.executeNode_restores ih settings s⟩

/-- A whole program leaves the machine in the environment it began in. -/
theorem Machine.environment_run (settings : Settings) (program : List (Stmt Hops)) (m : Machine) :
    (m.run settings program).2.environment = m.environment := by
  have hall := Runner.executeAll_restores (nested_restores settings settings.nesting) program m
  unfold Machine.run
  revert hall
  show (settings.runner.executeAll program m).2.environment = m.environment → _
  rcases settings.runner.executeAll program m with ⟨stop | c, m'⟩ <;> exact id

namespace Session

/-- Execution leaves the session in the environment it had. -/
theorem environment_execute (settings : Settings) (program : List (Stmt Hops)) (s : Session) :
    (s.execute settings program).2.machine.environment = s.machine.environment := by
  rw [machine_execute]
  exact s.machine.environment_run settings program

/-- Whichever stage a step ends at. -/
theorem environment_step (settings : Settings) (wantsTable : Bool) (stopAfter : Option ArtifactName)
    (source : String) (s : Session) :
    (s.step settings wantsTable stopAfter source).session.machine.environment = s.machine.environment := by
  obtain ⟨program, ds, hparse, -⟩ := parse_scan source
  have hadvances := s.step_advances settings wantsTable stopAfter hparse
  generalize (s.step settings wantsTable stopAfter source).session = s' at hadvances ⊢
  cases hadvances with
  | scanned | parsed | resolved => rfl
  | executed => exact environment_execute settings _ _

/-- A program that is run unresolved. -/
theorem environment_stepUnresolved (settings : Settings) (source : String) (s : Session) :
    (s.stepUnresolved settings source).session.machine.environment = s.machine.environment := by
  unfold stepUnresolved
  dsimp only
  split
  · rfl
  · exact environment_execute settings _ _

end Session

/-- Each step of a session ends where it began, and a session begins among the globals. -/
theorem Session.environment_after (requests : List Request) (s : Session) :
    (s.after requests).machine.environment = s.machine.environment := by
  induction requests generalizing s with
  | nil => rfl
  | cons r requests ih =>
    have hserve : (s.serve r).session.machine.environment = s.machine.environment := by
      unfold serve
      rw [environment_step]
      cases r.resets <;> rfl
    exact (ih _).trans hserve

/-- **The current environment is restored.** Every expression and every statement, whatever its references note, leaves
any machine in the environment it began in: with a result, with a `return` on its way, or with a stop for a mistake
of the program, for a fault or at a limit. That is so although class declarations go into the frame of `super` and
back by hand, and the evaluator that does so is the evaluator. Hence whole programs, resolved or not, end where they
began, and after any requests a session is among its globals. -/
theorem environment_restored (settings : Settings) :
    (∀ n, (∀ e, (evaluateUnguarded settings n e).Restores) ∧ ∀ s, (executeUnguarded settings n s).Restores) ∧
      (∀ n, evaluateUnguarded settings n = evaluateNested settings n ∧
        executeUnguarded settings n = executeNested settings n) ∧
      (∀ program m, (Machine.run settings program m).2.environment = m.environment) ∧
      (∀ source s, (Session.stepUnresolved settings source s).session.machine.environment = s.machine.environment) ∧
      ∀ requests, (Session.initial.after requests).machine.environment = .globals := by
  refine ⟨fun n => ?_, unguarded_eq_nested settings, Machine.environment_run settings,
    Session.environment_stepUnresolved settings, fun requests => Session.environment_after requests _⟩
  rw [(unguarded_eq_nested settings n).1, (unguarded_eq_nested settings n).2]
  exact ⟨(nested_restores settings n).evaluate, (nested_restores settings n).execute⟩

end LoxLang
