import LoxLang.Proofs.Returns.Throwing
import LoxLang.Proofs.Run.Sessions
import LoxLang.Proofs.Session.Gating

/-!
# Handing returns on is throwing them

The evaluator hands a return on from statement to statement until a call consumes it. Here that is shown to be the same
as throwing the value to the nearest call.

* **`Throwing.Threads`** — of two runs of a statement the second one hands on what the first one throws.
* **`nested_threads`** — the two evaluators agree so at every depth of nesting.
* **`Throwing.ReturnsBy`**, **`executeThrowing_returnsBy`** — what is thrown out of a statement comes from a `return`
  that stands in it, outside of the functions that it declares.
* **`threading_eq_throwing`** — the statement for whole programs, out of which nothing is thrown.
-/

namespace LoxLang

open Throwing

/-! ## Two ways to end

A statement that throws a return ends where the other one hands it on. `threaded` turns the first ending into the
second, and the rules below say that this commutes with putting runs together. -/

namespace Throwing

/-- What is left of a run if a thrown value is handed on instead. -/
def threaded : Except Escape Unit × Machine → Except Stop Completion × Machine
  | (.ok (), m) => (.ok .completed, m)
  | (.error (.returned _ v), m) => (.ok (.returning v), m)
  | (.error (.stopped stop), m) => (.error stop, m)

/-- On every machine the second run hands on what the first one throws, and leaves the same machine. -/
def Threads (act : Throwing Unit) (act' : Eval Completion) : Prop :=
  ∀ m, act' m = threaded (act m)

variable {α : Type}

namespace Threads

variable {act first rest : Throwing Unit} {act' first' rest' : Eval Completion}

/-- Both come to their end. -/
theorem completed : Threads (pure ()) (pure .completed) :=
  fun _ => rfl

/-- One throws the value and the other hands it on. -/
theorem returning (keyword : Token) (v : Value) :
    Threads (throw (.returned keyword v)) (pure (.returning v)) :=
  fun _ => rfl

theorem stopped (stop : Stop) : Threads (throw (.stopped stop)) (throw stop) :=
  fun _ => rfl

/-- Nothing is thrown out of the part that comes first. -/
theorem lift_bind (part : Eval α) {f : α → Throwing Unit} {f' : α → Eval Completion}
    (h : ∀ a, Threads (f a) (f' a)) : Threads (lift part >>= f) (part >>= f') := by
  intro m
  rw [Throwing.bind_apply, Eval.bind_apply]
  unfold Throwing.lift
  rcases part m with ⟨stop | a, m'⟩
  · rfl
  · exact h a m'

/-- A statement without other statements in it runs to its end. -/
theorem lift (part : Eval Unit) : Threads (lift part) (part >>= fun _ => pure .completed) := by
  intro m
  rw [Eval.bind_apply]
  unfold Throwing.lift
  rcases part m with ⟨stop | _, m'⟩ <;> rfl

/-- Both look at the same machine. -/
theorem get {f : Machine → Throwing Unit} {f' : Machine → Eval Completion} (h : ∀ m, Threads (f m) (f' m)) :
    Threads (MonadState.get >>= f) (MonadState.get >>= f') :=
  fun m => h m m

/-- One statement after another: what the first one throws passes the second one by. -/
theorem andThen (h : Threads first first') (hrest : Threads rest rest') :
    Threads (first >>= fun _ => rest)
      (first' >>= fun
        | .returning v => pure (.returning v)
        | .completed => rest') := by
  intro m
  rw [Throwing.bind_apply, Eval.bind_apply, h m]
  rcases first m with ⟨(⟨keyword, v⟩ | stop) | _, m'⟩
  · rfl
  · rfl
  · exact hrest m'

/-- Both come back to the environment from before, also when something is thrown. -/
theorem within (env : Environment) (h : Threads act act') :
    Threads (within env act) (Eval.within env act') := by
  intro m
  have hm := h { m with environment := env }
  unfold Throwing.within Eval.within
  dsimp only
  rw [hm]
  rcases act { m with environment := env } with ⟨(⟨keyword, v⟩ | stop) | _, m'⟩ <;> rfl

/-- What is thrown ends the loop. -/
theorem loop {test : Eval Bool} {body : Throwing Unit} {body' : Eval Completion} (hbody : Threads body body')
    (rounds : Nat) : Threads (loop test body rounds) (Runner.repeatWhile test body' rounds) := by
  induction rounds with
  | zero => exact stopped .tooLong
  | succ rounds ih =>
    refine lift_bind test fun b => ?_
    cases b with
    | false => exact completed
    | true => exact hbody.andThen ih

end Threads

end Throwing

/-- What a call makes of the way in which its body ends. -/
def Completion.value : Completion → Value
  | .completed => .nil
  | .returning v => v

/-- A call that catches what is thrown consumes what is handed on. -/
theorem Throwing.Threads.catching {act : Throwing Unit} {act' : Eval Completion} (h : Threads act act') :
    catching act = Completion.value <$> act' := by
  funext m
  rw [map_eq_pure_bind, Eval.bind_apply, h m]
  unfold Throwing.catching
  rcases act m with ⟨(⟨keyword, v⟩ | stop) | _, m'⟩ <;> rfl

/-! ## The rules

Expressions throw nothing, because a call catches what its body throws. So for expressions the two evaluators are equal.
-/

/-- The runs of two evaluators: they evaluate expressions alike, and the second one hands on what the first one
throws. -/
structure Thrower.Threads (run : Thrower) (run' : Runner) : Prop where
  evaluate : run.evaluate = run'.evaluate
  execute : ∀ s, (run.execute s).Threads (run'.execute s)

namespace Thrower

variable {run : Thrower} {run' : Runner} (hrun : run.Threads run')
include hrun

/-- A list of statements is left by the first return, in one way or the other. -/
theorem executeAll_threads (ss : List (Stmt Hops)) : (run.executeAll ss).Threads (run'.executeAll ss) := by
  induction ss with
  | nil => exact .completed
  | cons s ss ih => exact (hrun.execute s).andThen ih

/-! ### Calls

Here the thrown value is caught, and the one that was handed on is taken up. -/

/-- An initializer gives its instance, whichever way its body ended. -/
theorem activate_eq (f : Closure) (arguments : List Value) :
    run.activate f arguments = f.call run'.executeAll arguments := by
  have hbody : ∀ env, catching (within env (run.executeAll f.declaration.body))
      = Completion.value <$> Eval.within env (run'.executeAll f.declaration.body) :=
    fun env => ((executeAll_threads hrun f.declaration.body).within env).catching
  unfold activate Closure.call
  dsimp only
  congr 1
  funext frame
  rw [hbody, map_eq_pure_bind]
  funext m
  rw [Eval.bind_apply, Eval.bind_apply, Eval.bind_apply]
  rcases Eval.within _ (run'.executeAll f.declaration.body) m with ⟨stop | completion, m'⟩
  · rfl
  · -- the value is not looked at if the function is an initializer
    show (if f.isInitializer then _ else _ : Eval Value) m' = (if f.isInitializer then _ else _ : Eval Value) m'
    cases f.isInitializer with
    | true => rfl
    | false => cases completion <;> rfl

/-- The initializer is called in the same way. -/
theorem instantiate_eq (c : Class) (arguments : List Value) :
    run.instantiate c arguments = c.instantiate run'.executeAll arguments := by
  unfold instantiate Class.instantiate
  cases c.initializer? with
  | none => rfl
  | some f => simp only [activate_eq hrun]

theorem callValue_eq (settings : Settings) (arguments : List Value) (callee : Value) :
    run.callValue settings arguments callee = callee.call settings run'.executeAll arguments := by
  cases callee with
  | function f => exact activate_eq hrun f arguments
  | classValue c => exact instantiate_eq hrun c arguments
  | nil | bool | number | string | clock | object => rfl

/-- The checks before a call are the same. -/
theorem call_eq (settings : Settings) (paren : Token) (callee : Value) (arguments : List Value) :
    run.call settings paren callee arguments = run'.call settings paren callee arguments := by
  unfold call Runner.call
  cases callee.arity? with
  | none => rfl
  | some arity => simp only [callValue_eq hrun]

/-! ### Expressions and statements

By the forms of the tree. -/

/-- Arguments are evaluated in the same way. -/
theorem evaluateAll_eq (es : List (Expr Hops)) : run.expressions.evaluateAll es = run'.evaluateAll es := by
  have hevaluate : run.expressions.evaluate = run'.evaluate := hrun.evaluate
  induction es with
  | nil => rfl
  | cons e es ih => rw [Runner.evaluateAll, Runner.evaluateAll, hevaluate, ih]

/-- Only calls differ in their definition. -/
theorem evaluateNode_eq (settings : Settings) (e : Expr Hops) :
    run.evaluateNode settings e = run'.evaluateNode settings e := by
  have hevaluate : run.evaluate = run'.evaluate := hrun.evaluate
  cases e with
  | call callee paren arguments =>
    rw [evaluateNode, Runner.evaluateNode, hevaluate, evaluateAll_eq hrun]
    simp only [call_eq hrun]
  | _ => simp only [evaluateNode, Runner.evaluateNode, expressions, hevaluate]

/-- A block, a branch or a loop is left by a throw, and is passed through by what is handed on. -/
theorem executeNode_threads (settings : Settings) (s : Stmt Hops) :
    (run.executeNode settings s).Threads (run'.executeNode settings s) := by
  obtain ⟨evaluate, execute⟩ := run
  obtain ⟨evaluate', execute'⟩ := run'
  -- both evaluate expressions by the same function
  obtain rfl : evaluate = evaluate' := hrun.evaluate
  cases s with
  | block body =>
    refine .lift_bind _ fun frame => .get fun m => ?_
    exact (executeAll_threads hrun body).within _
  | expression value => exact .lift_bind _ fun _ => .completed
  | function declaration => exact .get fun m => .lift_bind _ fun f => .lift _
  | «class» name heritage methods => exact .lift _
  | «if» condition thenBranch elseBranch =>
    refine .lift_bind _ fun v => ?_
    split
    · exact hrun.execute thenBranch
    · cases elseBranch with
      | none => exact .completed
      | some s => exact hrun.execute s
  | print value => exact .lift_bind _ fun v => .lift _
  | «return» keyword value => exact .lift_bind _ fun v => .returning keyword v
  | var name initializer => exact .lift_bind _ fun v => .lift _
  | «while» condition body => exact .loop (hrun.execute body) settings.rounds
  | unknown => exact .stopped _

end Thrower

/-! ## Every depth

What holds of the rules holds at every depth, by induction on the bound. -/

theorem nested_threads (settings : Settings) (n : Nat) :
    Thrower.Threads ⟨evaluateThrowing settings n, executeThrowing settings n⟩
      ⟨evaluateNested settings n, executeNested settings n⟩ := by
  induction n with
  | zero => exact ⟨rfl, fun _ => .stopped .tooDeep⟩
  | succ n ih => exact ⟨funext (Thrower.evaluateNode_eq ih settings), Thrower.executeNode_threads ih settings⟩

/-! ## Where a return comes from

In a program without complaints no `return` stands outside of a function, and so nothing is thrown out of the program.
-/

variable {ρ : Type}

mutual

/-- The keywords of the `return`s that stand in a statement outside of the functions that it declares. -/
def Stmt.returnKeywords : Stmt ρ → List Token
  | .block body => Stmt.allReturnKeywords body
  | .if _ thenBranch elseBranch =>
    thenBranch.returnKeywords ++
      (match elseBranch with
        | some s => s.returnKeywords
        | none => [])
  | .return keyword _ => [keyword]
  | .while _ body => body.returnKeywords
  | .expression _ | .function _ | .class _ _ _ | .print _ | .var _ _ | .unknown => []

/-- The keywords of the `return`s that stand in statements outside of functions. -/
def Stmt.allReturnKeywords : List (Stmt ρ) → List Token
  | [] => []
  | s :: ss => s.returnKeywords ++ Stmt.allReturnKeywords ss

end

mutual

/-- A statement that has no `return` has none of its keywords. -/
theorem Stmt.returnKeywords_eq_nil (s : Stmt ρ) (h : s.returns = false) : s.returnKeywords = [] := by
  cases s with
  | block body => exact Stmt.allReturnKeywords_eq_nil body h
  | «if» condition thenBranch elseBranch =>
    cases elseBranch with
    | none =>
      obtain ⟨hthen, -⟩ := Bool.or_eq_false_iff.mp h
      rw [Stmt.returnKeywords, Stmt.returnKeywords_eq_nil thenBranch hthen, List.append_nil]
    | some s =>
      obtain ⟨hthen, helse⟩ := Bool.or_eq_false_iff.mp h
      rw [Stmt.returnKeywords, Stmt.returnKeywords_eq_nil thenBranch hthen, Stmt.returnKeywords_eq_nil s helse,
        List.append_nil]
  | «return» => cases h
  | «while» condition body => exact Stmt.returnKeywords_eq_nil body h
  | expression | function | «class» | print | var | unknown => rfl

theorem Stmt.allReturnKeywords_eq_nil (ss : List (Stmt ρ)) (h : Stmt.anyReturns ss = false) :
    Stmt.allReturnKeywords ss = [] := by
  cases ss with
  | nil => rfl
  | cons s ss =>
    obtain ⟨hs, hss⟩ := Bool.or_eq_false_iff.mp h
    rw [Stmt.allReturnKeywords, Stmt.returnKeywords_eq_nil s hs, Stmt.allReturnKeywords_eq_nil ss hss]
    rfl

end

namespace Throwing

/-- What is thrown out of a run comes from a `return` with one of the keywords. -/
def ReturnsBy (keywords : List Token) (act : Throwing Unit) : Prop :=
  ∀ m keyword v, (act m).1 = .error (.returned keyword v) → keyword ∈ keywords

namespace ReturnsBy

variable {α : Type} {keywords keywords' : List Token} {act first rest : Throwing Unit}

theorem mono (h : ReturnsBy keywords act) (hsub : keywords ⊆ keywords') : ReturnsBy keywords' act :=
  fun m keyword v hthrown => hsub (h m keyword v hthrown)

theorem completed : ReturnsBy keywords (pure ()) :=
  fun _ _ _ hthrown => by cases hthrown

/-- What is thrown comes from this keyword. -/
theorem returning {keyword : Token} (h : keyword ∈ keywords) (v : Value) :
    ReturnsBy keywords (throw (.returned keyword v)) := by
  intro m keyword' v' hthrown
  cases hthrown
  exact h

/-- To stop is not to return. -/
theorem stopped (stop : Stop) : ReturnsBy keywords (throw (.stopped stop)) :=
  fun _ _ _ hthrown => by cases hthrown

/-- A part that throws nothing, and then the rest. -/
theorem lift_bind (part : Eval α) {f : α → Throwing Unit} (h : ∀ a, ReturnsBy keywords (f a)) :
    ReturnsBy keywords (lift part >>= f) := by
  intro m keyword v
  rw [Throwing.bind_apply]
  unfold Throwing.lift
  rcases part m with ⟨stop | a, m'⟩
  · exact fun hthrown => by cases hthrown
  · exact h a m' keyword v

/-- Nothing is thrown out of a part without statements in it. -/
theorem lift (part : Eval Unit) : ReturnsBy keywords (lift part) := by
  have hbind : ReturnsBy keywords (Throwing.lift part >>= pure) := lift_bind part fun _ => completed
  rwa [bind_pure] at hbind

theorem get {f : Machine → Throwing Unit} (h : ∀ m, ReturnsBy keywords (f m)) :
    ReturnsBy keywords (MonadState.get >>= f) :=
  fun m => h m m

/-- What is thrown comes from one or the other. -/
theorem andThen (h : ReturnsBy keywords first) (hrest : ReturnsBy keywords rest) :
    ReturnsBy keywords (first >>= fun _ => rest) := by
  intro m keyword v
  have hm := h m keyword v
  rw [Throwing.bind_apply]
  revert hm
  rcases first m with ⟨escape | _, m'⟩
  · exact id
  · exact fun _ => hrest m' keyword v

theorem within (env : Environment) (h : ReturnsBy keywords act) : ReturnsBy keywords (within env act) :=
  fun m => h { m with environment := env }

/-- What is thrown comes from the body. -/
theorem loop {test : Eval Bool} {body : Throwing Unit} (hbody : ReturnsBy keywords body) (rounds : Nat) :
    ReturnsBy keywords (loop test body rounds) := by
  induction rounds with
  | zero => exact stopped .tooLong
  | succ rounds ih =>
    refine lift_bind test fun b => ?_
    cases b with
    | false => exact completed
    | true => exact hbody.andThen ih

end ReturnsBy

end Throwing

namespace Thrower

variable (run : Thrower) (hrun : ∀ s, (run.execute s).ReturnsBy s.returnKeywords)
include hrun

theorem executeAll_returnsBy (ss : List (Stmt Hops)) :
    (run.executeAll ss).ReturnsBy (Stmt.allReturnKeywords ss) := by
  induction ss with
  | nil => exact .completed
  | cons s ss ih =>
    rw [Stmt.allReturnKeywords]
    exact ((hrun s).mono (List.subset_append_left _ _)).andThen (ih.mono (List.subset_append_right _ _))

/-- By the form of the statement; a call lets nothing out. -/
theorem executeNode_returnsBy (settings : Settings) (s : Stmt Hops) :
    (run.executeNode settings s).ReturnsBy s.returnKeywords := by
  -- a body returns by keywords of its own statements; what a condition calls has returned before
  cases s with
  | block body => exact .lift_bind _ fun frame => .get fun m => (executeAll_returnsBy run hrun body).within _
  | expression value => exact .lift_bind _ fun _ => .completed
  | function declaration => exact .get fun m => .lift_bind _ fun f => .lift _
  | «class» name heritage methods => exact .lift _
  | «if» condition thenBranch elseBranch =>
    cases elseBranch with
    | none =>
      rw [Stmt.returnKeywords, List.append_nil]
      refine .lift_bind _ fun v => ?_
      split
      · exact hrun thenBranch
      · exact .completed
    | some s =>
      rw [Stmt.returnKeywords]
      refine .lift_bind _ fun v => ?_
      split
      · exact (hrun thenBranch).mono (List.subset_append_left _ _)
      · exact (hrun s).mono (List.subset_append_right _ _)
  | print value => exact .lift_bind _ fun v => .lift _
  | «return» keyword value => exact .lift_bind _ fun v => .returning (List.mem_singleton_self keyword) v
  | var name initializer => exact .lift_bind _ fun v => .lift _
  | «while» condition body => exact .loop (hrun body) settings.rounds
  | unknown => exact .stopped _

end Thrower

theorem executeThrowing_returnsBy (settings : Settings) (n : Nat) (s : Stmt Hops) :
    (executeThrowing settings n s).ReturnsBy s.returnKeywords := by
  induction n generalizing s with
  | zero => exact .stopped .tooDeep
  | succ n ih => exact Thrower.executeNode_returnsBy _ ih settings s

/-! ## Programs

Outside of functions nothing is returned in a program that is resolved without complaint. -/

/-- Nothing is thrown out of a program without a `return` outside of functions, and its two runs are one. -/
theorem Machine.runThrowing_eq (settings : Settings) {program : List (Stmt Hops)}
    (h : Stmt.anyReturns program = false) (m : Machine) :
    m.runThrowing settings program = ((m.run settings program).1.map .stopped, (m.run settings program).2) := by
  have hthreads := Thrower.executeAll_threads (nested_threads settings settings.nesting) program m
  have hreturns := settings.thrower.executeAll_returnsBy
    (executeThrowing_returnsBy settings settings.nesting) program m
  rw [Stmt.allReturnKeywords_eq_nil program h] at hreturns
  unfold Machine.runThrowing Machine.run
  change settings.runner.executeAll program m = threaded (settings.thrower.executeAll program m) at hthreads
  rw [hthreads]
  revert hreturns
  rcases settings.thrower.executeAll program m with ⟨(⟨keyword, v⟩ | stop) | _, m'⟩
  · exact fun hreturns => absurd (hreturns keyword v rfl) List.not_mem_nil
  · exact fun _ => rfl
  · exact fun _ => rfl

/-- **Handing returns on is throwing them.** At every depth of nesting expressions have the same values and effects in
both evaluators, and a statement hands on what it throws when returns are thrown; what bodies throw to their call comes
from a `return` that stands in them, outside of the functions that they declare. Out of a program that is resolved
without complaint nothing is thrown, so that it runs to the same end on the same machine either way. Its statements
are executed in their order and cut short by a mistake at run time only, or on the machines of sessions by a limit. -/
theorem threading_eq_throwing (settings : Settings) {source : String} {parsed : Parsed}
    (hparse : parse (scan source).tokens = some parsed) (hresolve : (resolve parsed.program).2.diagnostics = []) :
    let program := (resolve parsed.program).1
    (∀ n, (∀ e, evaluateThrowing settings n e = evaluateNested settings n e) ∧
        ∀ s, (executeThrowing settings n s).Threads (executeNested settings n s)) ∧
      (∀ n body, (Thrower.executeAll ⟨evaluateThrowing settings n, executeThrowing settings n⟩ body).ReturnsBy
        (Stmt.allReturnKeywords body)) ∧
      (∀ m : Machine, m.runThrowing settings program
        = ((m.run settings program).1.map .stopped, (m.run settings program).2)) ∧
      (∀ m : Machine, settings.runner.Ran program m (m.run settings program).1 (m.run settings program).2 ∧
        ∀ stop ∈ (m.run settings program).1, stop.AtRuntime) ∧
      ∀ requests, ∀ stop ∈ ((Session.initial.after requests).machine.run settings program).1, stop.Foreseen := by
  intro program
  have hreturns : Stmt.anyReturns program = false := anyReturns_resolve hparse hresolve
  refine ⟨fun n => ?_, fun n => ?_, ?_, ?_, fun requests => ?_⟩
  · exact ⟨congrFun (nested_threads settings n).evaluate, (nested_threads settings n).execute⟩
  · exact Thrower.executeAll_returnsBy _ (executeThrowing_returnsBy settings n)
  · exact Machine.runThrowing_eq settings hreturns
  · exact Machine.run_ran settings hreturns
  · -- which limits there are depends on the machine, and those of sessions are sound
    obtain ⟨program', ds, hparse', hformed⟩ := parse_scan source
    obtain rfl : parsed = ⟨program', ds⟩ := Option.some.inj (hparse.symm.trans hparse')
    obtain ⟨-, -, hclean⟩ := resolve_scoped false hformed fun heq => by cases heq
    have hat : (Session.initial.after requests).machine.At [] := Session.after_sound Machine.at_initial requests
    exact (Machine.run_sound settings hat (hclean hresolve).1).2.2

set_option maxRecDepth 2048 in
/-- A `return` in a loop gives the value of the call, and what follows the call goes on. -/
theorem threading_eq_throwing_out_of_loop :
    let source := "fun f(b) \x7b while (true) \x7b if (b) return \"out\"; b = true; \x7d \x7d print f(false);"
    let name (lexeme : String) : Token := ⟨.identifier, lexeme, .nil, 1⟩
    let out : SourceStmt := .return ⟨.return, "return", .nil, 1⟩ (some (.literal (.string "out")))
    let body : List SourceStmt :=
      [.while (.literal (.bool true)) (.block [.if (.variable ⟨name "b", ()⟩) out none,
        .expression (.assign ⟨name "b", ()⟩ (.literal (.bool true)))])]
    let paren : Token := ⟨.rightParen, ")", .nil, 1⟩
    let call : SourceExpr := .call (.variable ⟨name "f", ()⟩) paren [.literal (.bool false)]
    let program : List SourceStmt := [.function ⟨name "f", [name "b"], body⟩, .print call]
    let settings : Settings := ⟨10, 10, fun _ => 0⟩
    parse (scan source).tokens = some ⟨program, []⟩ ∧ (resolve program).2.diagnostics = [] ∧
      (Machine.initial.run settings (resolve program).1).2.printed = #["out"] ∧
      Machine.initial.runThrowing settings (resolve program).1
        = ((Machine.initial.run settings (resolve program).1).1.map .stopped,
            (Machine.initial.run settings (resolve program).1).2) := by
  intro source name out body paren call program settings
  have hparse : parse (scan source).tokens = some ⟨program, []⟩ := by cbv
  have hresolve : (resolve program).2.diagnostics = [] := by cbv
  obtain ⟨-, -, heq, -⟩ := threading_eq_throwing settings hparse hresolve
  exact ⟨hparse, hresolve, by cbv, heq Machine.initial⟩

end LoxLang
