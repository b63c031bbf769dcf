import LoxLang.Proofs.Scope.Returns
import LoxLang.Run.Evaluate

/-!
# How runs end

Two facts about the end of a run that hold on every machine, whatever its heap and its environment are.

* A mistake of the program that stops a run is one of the running program.
* **`Settings.execute_ends`** — a statement that has no `return` outside of its functions does not end with one.

`Eval.Ends` is a triple for both. The induction is on the depth of nesting.

Other properties of whole runs follow the same plan: a triple with a rule for each primitive of `Eval`, a lemma for
each function of the machine and for each rule of the evaluator, and an induction on the depth of nesting at the end.
-/

namespace LoxLang

/-! ## Operators

Operators need no machine. They give a plain value or stop with a mistake or a fault, and a property of runs is checked
for all of them by looking at these cases. -/

/-- A stop for a mistake of the program is for one of the running program, at a token. -/
def Stop.AtRuntime (stop : Stop) : Prop :=
  ∀ d, stop = .error d → ∃ cause token, d = .ofToken .runtime cause token

/-- A value without code in it. -/
def Value.IsPlain : Value → Prop
  | .nil | .bool _ | .number _ | .string _ | .clock => True
  | .function _ | .classValue _ | .object _ => False

/-- A run that needs no machine: it gives a plain value or stops. -/
inductive Eval.Still : Eval Value → Prop
  | value {v : Value} (hv : v.IsPlain) : Still (pure v)
  | stop {stop : Stop} (hstop : stop.AtRuntime) : Still (throw stop)

/-- A mistake that the evaluator reports is one of the running program. -/
theorem Stop.atRuntime_fail (cause : Cause) (token : Token) :
    Stop.AtRuntime (.error (.ofToken .runtime cause token)) := by
  intro d hd
  cases hd
  exact ⟨cause, token, rfl⟩

/-- A fault is no mistake of the program. -/
theorem Stop.atRuntime_fault (f : Fault) : Stop.AtRuntime (.fault f) := by
  intro d hd
  cases hd

namespace Eval

/-- Negation needs a number, and the truth of a value is always defined. -/
theorem unary_still (operator : Token) (right : Value) : Still (unary operator right) := by
  unfold unary
  split
  · exact .value trivial
  · split
    · exact .value trivial
    · exact .stop (Stop.atRuntime_fail _ _)
  · exact .stop (Stop.atRuntime_fault _)

/-- Numbers are added and strings are joined; anything else is a mistake. -/
theorem add_still (operator : Token) (left right : Value) : Still (add operator left right) := by
  unfold add
  split
  · exact .value trivial
  · exact .value trivial
  · exact .stop (Stop.atRuntime_fail _ _)

/-- With two numbers every operator gives a number or a truth value. -/
theorem arithmetic_still (operator : Token) (x y : Float) : Still (arithmetic operator x y) := by
  unfold arithmetic
  split
  all_goals first | exact .value trivial | exact .stop (Stop.atRuntime_fault _)

/-- Comparisons for equality take all values, the other operators take numbers. -/
theorem binary_still (operator : Token) (left right : Value) : Still (binary operator left right) := by
  unfold binary
  split
  · exact .value trivial
  · exact .value trivial
  · exact add_still _ _ _
  · split
    · exact arithmetic_still _ _ _
    · exact .stop (Stop.atRuntime_fail _ _)

end Eval

/-! ## The triple

A run is followed from every machine at once. Nothing is said about the machine that it leaves. -/

/-- From every machine a run gives a result with the property or stops. -/
def Eval.Ends {α : Type} (Q : α → Prop) (act : Eval α) : Prop :=
  ∀ m, match (act m).1 with
    | .ok a => Q a
    | .error stop => stop.AtRuntime

namespace Eval

variable {α β : Type} {P : α → Prop} {Q : β → Prop} {act : Eval α} {f : α → Eval β}

namespace Ends

theorem pure {a : α} (h : P a) : Ends P (pure a) :=
  fun _ => h

/-- The reason to stop is known. -/
theorem throw {stop : Stop} (h : stop.AtRuntime) : Ends P (throw stop : Eval α) :=
  fun _ => h

/-- Stops that are no mistakes of the program. -/
theorem unforeseen {stop : Stop} (h : ∀ d, stop ≠ .error d) : Ends P (MonadExcept.throw stop : Eval α) :=
  throw fun d hd => absurd hd (h d)

/-- A mistake that is reported at a token. -/
theorem fail (cause : Cause) (token : Token) : Ends P (fail cause token) :=
  throw (Stop.atRuntime_fail cause token)

/-- Runs that change the machine in one step. -/
theorem modifyGet (g : Machine → α × Machine) : Ends (fun _ => True) (modifyGet g : Eval α) :=
  fun _ => trivial

/-- What is known of results may be weakened. -/
theorem mono {P' : α → Prop} (h : Ends P act) (himp : ∀ a, P a → P' a) : Ends P' act := by
  intro m
  have hm := h m
  revert hm
  cases (act m).1 with
  | ok a => exact himp a
  | error stop => exact id

/-- If the first run stops, that is how both end; otherwise the second one decides. -/
theorem bind (h : Ends P act) (hf : ∀ a, P a → Ends Q (f a)) : Ends Q (act >>= f) := by
  intro m
  have hm := h m
  rw [bind_apply]
  revert hm
  rcases act m with ⟨result, m'⟩
  cases result with
  | ok a => exact fun ha => hf a ha m'
  | error stop => exact id

/-- The result is changed, and how the run ends is not. -/
theorem map {f : α → β} (h : Ends P act) (hf : ∀ a, P a → Q (f a)) : Ends Q (f <$> act) := by
  rw [map_eq_pure_bind]
  exact h.bind fun a ha => .pure (hf a ha)

/-- Whatever the machine is that is looked at. -/
theorem get {f : Machine → Eval β} (h : ∀ m, Ends Q (f m)) : Ends Q (MonadState.get >>= f) :=
  fun m => h m m

/-- A fault may come out, but no mistake. -/
theorem ofExcept (r : Except Fault α) : Ends (fun _ => True) (ofExcept r) := by
  cases r with
  | ok a => exact pure trivial
  | error f => exact unforeseen fun d h => by cases h

/-- In which environment a run takes place is of no importance to how it ends. -/
theorem within {env : Environment} (h : Ends P act) : Ends P (within env act) :=
  fun m => h { m with environment := env }

/-- Too deep a nesting becomes a mistake of the running program; other ends stay as they are. -/
theorem overflowAt {token : Token} (h : Ends P act) : Ends P (overflowAt token act) := by
  intro m
  have hm := h m
  unfold Eval.overflowAt
  revert hm
  rcases act m with ⟨result, m'⟩
  match result with
  | .ok a => exact id
  | .error (.error d) | .error (.fault _) | .error .tooLong => exact id
  | .error .tooDeep =>
    -- too deep a nesting becomes a mistake of the program at the call
    exact fun _ => Ends.fail (P := P) .stackOverflow token m'

/-! ### Variables

A variable that is not found is a mistake or a fault, depending on how it was looked for. In neither case is there a
complaint of an earlier stage. -/

/-- Allocating does not stop. -/
theorem alloc (c : Cell) : Ends (fun _ => True) (alloc c) :=
  modifyGet _

/-- Binding a name does not stop. -/
theorem define (a : Address) (name : String) (v : Value) : Ends (fun _ => True) (define a name v) :=
  modifyGet _

/-- A name that is nowhere bound is a mistake. -/
theorem read (env : Environment) (name : Token) : Ends (fun _ => True) (read env name) := by
  refine get fun m => ?_
  cases env.get? m.heap name.lexeme with
  | none => exact fail _ _
  | some v => exact pure trivial

/-- So it is when it is assigned to. -/
theorem assign (env : Environment) (name : Token) (v : Value) : Ends (fun _ => True) (assign env name v) := by
  refine get fun m => ?_
  cases env.holder? m.heap name.lexeme with
  | none => exact fail _ _
  | some a => exact define _ _ _

/-- Where a distance leads to nothing there is a fault. -/
theorem readAt (env : Environment) (distance : Nat) (name : String) :
    Ends (fun _ => True) (readAt env distance name) :=
  get fun _ => ofExcept _

/-- A distance that leads out of all frames is a fault too. -/
theorem assignAt (env : Environment) (distance : Nat) (name : String) (v : Value) :
    Ends (fun _ => True) (assignAt env distance name v) :=
  (ofExcept _).bind fun _ _ => define _ _ _

/-- Declaring a name does not stop. -/
theorem declare (name : Token) (v : Value) : Ends (fun _ => True) (declare name v) := by
  refine get fun m => ?_
  cases m.environment with
  | nil => exact pure trivial
  | cons a env => exact define _ _ _

theorem still {act : Eval Value} (h : Still act) : Ends (fun _ => True) act := by
  cases h with
  | value hv => exact pure trivial
  | stop hstop => exact throw hstop

end Ends

end Eval

open Eval

/-! ## Functions, classes and instances

What a call does is done by a body, of which it is assumed here that it ends as it should. -/

/-- To make a function is to allocate. -/
theorem Closure.create_ends (declaration : FunDecl Hops) (env : Environment) (isInitializer : Bool) :
    Ends (fun _ => True) (Closure.create declaration env isInitializer) :=
  (Ends.alloc _).bind fun _ _ => .pure trivial

/-- To bind a method is to make a function. -/
theorem Closure.bind_ends (f : Closure) (this : Value) : Ends (fun _ => True) (f.bind this) :=
  (Ends.alloc _).bind fun _ _ => Closure.create_ends _ _ _

section

variable {body : BodyRunner} (hbody : ∀ ss, Ends (fun _ => True) (body ss))
include hbody

/-- The body may end with a `return`, which the call takes up. -/
theorem Closure.call_ends (f : Closure) (arguments : List Value) : Ends (fun _ => True) (f.call body arguments) := by
  refine (Ends.alloc _).bind fun frame _ => (hbody _).within.bind fun completion _ => ?_
  split
  · exact .readAt _ _ _
  · cases completion <;> exact .pure trivial

/-- The initializer is called if there is one. -/
theorem Class.instantiate_ends (c : Class) (arguments : List Value) :
    Ends (fun _ => True) (c.instantiate body arguments) := by
  refine (Ends.alloc _).bind fun address _ => ?_
  dsimp only
  split
  · exact (Closure.bind_ends _ _).bind fun g _ => (Closure.call_ends hbody g arguments).bind fun _ _ => .pure trivial
  · exact .pure trivial

/-- What cannot be called is a fault here; the mistake has been reported before. -/
theorem Value.call_ends (settings : Settings) (callee : Value) (arguments : List Value) :
    Ends (fun _ => True) (callee.call settings body arguments) := by
  cases callee with
  | function f => exact Closure.call_ends hbody f arguments
  | clock => exact .modifyGet _
  | classValue c => exact Class.instantiate_ends hbody c arguments
  | nil | bool | number | string | object => exact .unforeseen fun d h => by cases h

end

/-- A field, a bound method, or the mistake that there is neither. -/
theorem Instance.get_ends (i : Instance) (name : Token) : Ends (fun _ => True) (i.get name) := by
  refine Ends.get fun m => ?_
  cases (m.heap.fields i.address).get? name.lexeme with
  | some v => exact .pure trivial
  | none =>
    dsimp only
    cases i.origin.findMethod? name.lexeme with
    | some method => exact (Closure.bind_ends _ _).map fun _ _ => trivial
    | none => exact .fail _ _

/-! ## The rules

Here is what a statement may end with: a statement without `return` outside of its functions completes. -/

/-- What a statement may end with. -/
def Completion.Ends (returns : Bool) (c : Completion) : Prop :=
  returns = false → c = .completed

/-- A runner whose runs end as they should. -/
structure Runner.Ends (run : Runner) : Prop where
  evaluate : ∀ e, Eval.Ends (fun _ => True) (run.evaluate e)
  execute : ∀ s, Eval.Ends (Completion.Ends s.returns) (run.execute s)

namespace Runner

variable {run : Runner}

theorem lookUp_ends (reference : Reference Hops) : Eval.Ends (fun _ => True) (lookUp reference) := by
  unfold lookUp
  cases reference.note with
  | none => exact .read _ _
  | some distance => exact .get fun _ => .readAt _ _ _

theorem assign_ends (target : Reference Hops) (v : Value) : Eval.Ends (fun _ => True) (assign target v) := by
  unfold assign
  cases target.note with
  | none => exact .assign _ _ _
  | some distance => exact .get fun _ => .assignAt _ _ _ _

/-- The superclass and the instance are found by distance, and its method may be missing. -/
theorem superMethod_ends (keyword : Reference Hops) (method : Token) :
    Eval.Ends (fun _ => True) (superMethod keyword method) := by
  unfold superMethod
  cases keyword.note with
  | none => exact .unforeseen fun d h => by cases h
  | some distance =>
    refine .get fun m => (Ends.readAt _ _ _).bind fun superclass _ => (Ends.readAt _ _ _).bind fun this _ => ?_
    cases superclass with
    | classValue c =>
      dsimp only
      cases c.findMethod? method.lexeme with
      | some f => exact (Closure.bind_ends _ _).map fun _ _ => trivial
      | none => exact .fail _ _
    | _ => exact .unforeseen fun d h => by cases h

/-- What is extended has to be a class. -/
theorem superclass_ends (reference : Reference Hops) : Eval.Ends (fun _ => True) (superclass reference) := by
  refine (lookUp_ends reference).bind fun v _ => ?_
  cases v with
  | classValue c => exact .pure trivial
  | _ => exact .fail _ _

theorem createMethods_ends (env : Environment) (ds : List (FunDecl Hops)) (methods : Bindings Closure) :
    Eval.Ends (fun _ => True) (createMethods env ds methods) := by
  induction ds generalizing methods with
  | nil => exact .pure trivial
  | cons d ds ih => exact (Closure.create_ends _ _ _).bind fun f _ => ih _

/-! ### The steps of a class declaration

A class declaration is the longest rule of the evaluator. It is cut into the superclass, the scope of the methods and
what is left, so that each property of runs is shown for its steps. -/

/-- The class that a class extends, if there is one. -/
def parentOf (heritage : Option (Reference Hops)) : Eval (Option Class) :=
  match heritage with
  | some reference => some <$> superclass reference
  | none => pure none

/-- The environment of the methods of a class. -/
def methodScope (env : Environment) (parent : Option Class) : Eval Environment :=
  match parent with
  | some c => (· :: env) <$> Eval.alloc (.frame [("super", .classValue c)])
  | none => pure env

/-- Makes a class of methods and binds its name. -/
def finishClass (env : Environment) (name : Token) (parent : Option Class) (methods : Bindings Closure) :
    Eval Unit := do
  let own : ClassLayer := ⟨← Eval.alloc .identity, name.lexeme, methods⟩
  Eval.assign env name (.classValue ⟨own, parent.elim [] fun c => c.own :: c.inherited⟩)

/-- The declaration is its steps in succession. -/
theorem declareClass_eq (name : Token) (heritage : Option (Reference Hops)) (methods : List (FunDecl Hops)) :
    declareClass name heritage methods
      = parentOf heritage >>= fun parent => Eval.declare name .nil >>= fun _ => get >>= fun m =>
          methodScope m.environment parent >>= fun inner => createMethods inner methods [] >>= fun methods =>
            finishClass m.environment name parent methods := by
  -- what follows does not depend on how the superclass was found
  have hrest : ∀ parent : Option Class,
      (Eval.declare name .nil >>= fun _ => get >>= fun m : Machine =>
        (match parent with
          | some c => (· :: m.environment) <$> Eval.alloc (.frame [("super", .classValue c)]) >>= fun inner =>
              createMethods inner methods [] >>= fun methods => finishClass m.environment name parent methods
          | none => pure m.environment >>= fun inner =>
              createMethods inner methods [] >>= fun methods => finishClass m.environment name parent methods))
        = Eval.declare name .nil >>= fun _ => get >>= fun m =>
          methodScope m.environment parent >>= fun inner => createMethods inner methods [] >>= fun methods =>
            finishClass m.environment name parent methods := by
    intro parent
    cases parent <;> rfl
  cases heritage with
  | none => exact congrArg (pure none >>= ·) (funext hrest)
  | some reference => exact congrArg ((some <$> superclass reference) >>= ·) (funext hrest)

/-- Step by step; only the superclass can be a mistake. -/
theorem declareClass_ends (name : Token) (heritage : Option (Reference Hops)) (methods : List (FunDecl Hops)) :
    Eval.Ends (fun _ => True) (declareClass name heritage methods) := by
  have hparent : Eval.Ends (fun _ => True) (parentOf heritage) := by
    cases heritage with
    | none => exact .pure trivial
    | some reference => exact (superclass_ends reference).map fun _ _ => trivial
  have hscope : ∀ env parent, Eval.Ends (fun _ => True) (methodScope env parent) := by
    intro env parent
    cases parent with
    | none => exact .pure trivial
    | some c => exact (Ends.alloc _).map fun _ _ => trivial
  rw [declareClass_eq]
  refine hparent.bind fun parent _ => (Ends.declare _ _).bind fun _ _ => .get fun m => ?_
  refine (hscope _ _).bind fun inner _ => (createMethods_ends _ _ _).bind fun methods _ => ?_
  exact (Ends.alloc _).bind fun _ _ => .assign _ _ _

/-! ### Loops

By induction on the bound on rounds. A loop ends with a `return` only if its body does. -/

/-- Round by round, with the test before the body. -/
theorem repeatWhile_ends {test : Eval Bool} {body : Eval Completion} {returns : Bool}
    (htest : Eval.Ends (fun _ => True) test) (hbody : Eval.Ends (Completion.Ends returns) body) (rounds : Nat) :
    Eval.Ends (Completion.Ends returns) (repeatWhile test body rounds) := by
  induction rounds with
  | zero => exact .unforeseen fun d h => by cases h
  | succ rounds ih =>
    refine htest.bind fun b _ => ?_
    cases b with
    | false => exact .pure fun _ => rfl
    | true =>
      refine hbody.bind fun c hc => ?_
      cases c with
      | returning v => exact .pure hc
      | completed => exact ih

/-! ### Expressions and statements

One step of the evaluator. The runs of the parts are those of a runner that ends as it should. -/

variable (hrun : run.Ends)
include hrun

/-- Arguments are evaluated from left to right. -/
theorem evaluateAll_ends (es : List (Expr Hops)) : Eval.Ends (fun _ => True) (run.evaluateAll es) := by
  induction es with
  | nil => exact .pure trivial
  | cons e es ih => exact (hrun.evaluate e).bind fun v _ => ih.bind fun _ _ => .pure trivial

/-- A part that is missing stands for `nil`. -/
theorem evaluateOption_ends (e? : Option (Expr Hops)) : Eval.Ends (fun _ => True) (run.evaluateOption e?) := by
  cases e? with
  | none => exact .pure trivial
  | some e => exact hrun.evaluate e

/-- Statements run until one of them does not complete, and that is how the list ends. -/
theorem executeAll_ends (ss : List (Stmt Hops)) :
    Eval.Ends (Completion.Ends (Stmt.anyReturns ss)) (run.executeAll ss) := by
  induction ss with
  | nil => exact .pure fun _ => rfl
  | cons s ss ih =>
    refine (hrun.execute s).bind fun c hc => ?_
    cases c with
    | returning v =>
      -- the first statement has returned, so it has a `return` and the whole has one
      apply Ends.pure
      intro hnone
      exact hc (Bool.or_eq_false_iff.mp hnone).1
    | completed => exact ih.mono fun c hc hnone => hc (Bool.or_eq_false_iff.mp hnone).2

/-- The callee and the number of arguments are checked before the call. -/
theorem call_ends (settings : Settings) (paren : Token) (callee : Value) (arguments : List Value) :
    Eval.Ends (fun _ => True) (run.call settings paren callee arguments) := by
  unfold call
  split
  · exact .fail _ _
  · split
    · have hbody := fun ss => (executeAll_ends hrun ss).mono fun _ _ => trivial
      exact (Value.call_ends hbody settings callee arguments).overflowAt
    · exact .fail _ _

/-- By the form of the expression; each rule is a composition of what has been shown. -/
theorem evaluateNode_ends (settings : Settings) (e : Expr Hops) :
    Eval.Ends (fun _ => True) (evaluateNode settings run e) := by
  -- an unknown node is the one way to a stop that is not foreseen
  cases e with
  | assign target value =>
    exact (hrun.evaluate value).bind fun v _ => (assign_ends target v).bind fun _ _ => .pure trivial
  | binary left operator right =>
    exact (hrun.evaluate left).bind fun l _ => (hrun.evaluate right).bind fun r _ => .still (binary_still _ _ _)
  | call callee paren arguments =>
    refine (hrun.evaluate callee).bind fun f _ => (evaluateAll_ends hrun arguments).bind fun vs _ => ?_
    exact call_ends hrun settings paren f vs
  | get object name =>
    refine (hrun.evaluate object).bind fun v _ => ?_
    cases v with
    | object i => exact Instance.get_ends i name
    | _ => exact .fail _ _
  | grouping inner => exact hrun.evaluate inner
  | literal value => exact .pure trivial
  | logical left operator right =>
    refine (hrun.evaluate left).bind fun l _ => ?_
    split
    · exact .pure trivial
    · exact hrun.evaluate right
  | set object name value =>
    refine (hrun.evaluate object).bind fun o _ => ?_
    cases o with
    | object i => exact (hrun.evaluate value).bind fun v _ => (Ends.modifyGet _).bind fun _ _ => .pure trivial
    | _ => exact .fail _ _
  | super keyword method => exact superMethod_ends keyword method
  | this keyword => exact lookUp_ends keyword
  | unary operator right => exact (hrun.evaluate right).bind fun r _ => .still (unary_still _ _)
  | «variable» reference => exact lookUp_ends reference
  | unknown => exact .unforeseen fun d h => by cases h

/-- By the form of the statement. Blocks and branches end as their statements do, loops as their body, and `return` is
allowed to end as it does. -/
theorem executeNode_ends (settings : Settings) (s : Stmt Hops) :
    Eval.Ends (Completion.Ends s.returns) (executeNode settings run s) := by
  cases s with
  | block body => exact (Ends.alloc _).bind fun frame _ => .get fun m => (executeAll_ends hrun body).within
  | expression value => exact (hrun.evaluate value).bind fun _ _ => .pure fun _ => rfl
  | function declaration =>
    refine .get fun m => (Closure.create_ends _ _ _).bind fun f _ => ?_
    exact (Ends.declare _ _).bind fun _ _ => .pure fun _ => rfl
  | «class» name heritage methods => exact (declareClass_ends _ _ _).bind fun _ _ => .pure fun _ => rfl
  | «if» condition thenBranch elseBranch =>
    -- if the whole has no `return`, neither branch has one
    have hthen : Eval.Ends (Completion.Ends (Stmt.if condition thenBranch elseBranch).returns)
        (run.execute thenBranch) := by
      refine (hrun.execute thenBranch).mono fun c hc hnone => hc ?_
      cases elseBranch <;> exact (Bool.or_eq_false_iff.mp hnone).1
    refine (hrun.evaluate condition).bind fun v _ => ?_
    split
    · exact hthen
    · cases elseBranch with
      | none => exact .pure fun _ => rfl
      | some s => exact (hrun.execute s).mono fun c hc hnone => hc (Bool.or_eq_false_iff.mp hnone).2
  | print value =>
    exact (hrun.evaluate value).bind fun v _ => (Ends.modifyGet _).bind fun _ _ => .pure fun _ => rfl
  | «return» keyword value =>
    refine (evaluateOption_ends hrun value).bind fun v _ => .pure ?_
    intro hnone
    cases hnone
  | var name initializer =>
    refine (evaluateOption_ends hrun initializer).bind fun v _ => ?_
    exact (Ends.declare _ _).bind fun _ _ => .pure fun _ => rfl
  | «while» condition body =>
    exact repeatWhile_ends ((hrun.evaluate condition).map fun _ _ => trivial) (hrun.execute body) _
  | unknown => exact .unforeseen fun d h => by cases h

end Runner

/-! ## Every depth

The rules are put together by induction on the bound, and hold of whole programs. -/

/-- At depth zero a run stops, and no report is made of that here. -/
theorem nested_ends (settings : Settings) (n : Nat) :
    Runner.Ends ⟨evaluateNested settings n, executeNested settings n⟩ := by
  induction n with
  | zero =>
    have hdeep : ∀ d, Stop.tooDeep ≠ .error d := fun d h => by cases h
    exact ⟨fun _ => .unforeseen hdeep, fun _ => .unforeseen hdeep⟩
  | succ n ih => exact ⟨fun e => Runner.evaluateNode_ends ih settings e, fun s => Runner.executeNode_ends ih settings s⟩

/-- A statement without a `return` outside of functions runs to its end or stops, and a mistake that it stops for is
one of the running program. -/
theorem Settings.execute_ends (settings : Settings) (s : Stmt Hops) :
    Eval.Ends (Completion.Ends s.returns) (settings.runner.execute s) :=
  (nested_ends settings settings.nesting).execute s

end LoxLang
