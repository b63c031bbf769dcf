import LoxLang.Proofs.Cells.Declarations
import LoxLang.Proofs.Scope.Resolved
import Mathlib

/-!
# Runs on frames and runs on cells

* **`Runner.evaluateNode_matches`**, **`Runner.executeNode_runs`** — the rules of the evaluator match those on cells
  if the runs of the parts do.
* **`mirrors_nested`** — so do all runs, at every depth of nesting.
* **`run_eq_runOnCells`** — a program prints the same and ends the same way on frames and on cells.

The rules differ only where names are met. The evaluator on cells is run on the tree without distances, so that an
agreement of both says that the distances were right.
-/

namespace LoxLang

open Eval

variable {W : World} {S : Scopes} {m m' : Machine}

/-! ## Operators

Operators see of values what a program can see of them. -/

namespace Eval

/-- Truth and numbers are the same on both sides. -/
theorem unary_matches (h : m.Alike W m') (operator : Token) {v w : Value} (hvw : v.Alike W w) :
    Matches W (unary operator v) (unary operator w) (fun W v w => v.Alike W w) m m' := by
  unfold unary
  split
  · rw [hvw.isTruthy_eq]
    exact .pure h (.bool _)
  · cases hvw with
    | number x => exact .pure h (.number _)
    | _ => exact .fail h _ _
  · exact .stop h _

theorem add_matches (h : m.Alike W m') (operator : Token) {v v' w w' : Value} (hvw : v.Alike W w)
    (hvw' : v'.Alike W w') :
    Matches W (add operator v v') (add operator w w') (fun W v w => v.Alike W w) m m' := by
  cases hvw with
  | number x =>
    cases hvw' with
    | number y => exact .pure h (.number _)
    | _ => exact .fail h _ _
  | string s =>
    cases hvw' with
    | string t => exact .pure h (.string _)
    | _ => exact .fail h _ _
  | _ => exact .fail h _ _

theorem arithmetic_matches (h : m.Alike W m') (operator : Token) (x y : Float) :
    Matches W (arithmetic operator x y) (arithmetic operator x y) (fun W v w => v.Alike W w) m m' := by
  unfold arithmetic
  split
  case h_8 => exact .stop h _
  all_goals first
    | exact .pure h (.bool _)
    | exact .pure h (.number _)

/-- Equality of values that are alike is equality. -/
theorem binary_matches (h : m.Alike W m') (operator : Token) {v v' w w' : Value} (hvw : v.Alike W w)
    (hvw' : v'.Alike W w') :
    Matches W (binary operator v v') (binary operator w w') (fun W v w => v.Alike W w) m m' := by
  unfold binary
  rw [hvw.equals_eq hvw']
  split
  · exact .pure h (.bool _)
  · exact .pure h (.bool _)
  · exact add_matches h operator hvw hvw'
  · cases hvw with
    | number x =>
      cases hvw' with
      | number y => exact arithmetic_matches h operator x y
      | _ => exact .fail h _ _
    | _ => exact .fail h _ _

end Eval

/-! ## Expressions

The cells for what an expression declares would be in front of the others; but an expression declares nothing, and so
both environments stay as they are. -/

/-- A runner on frames, and the runners on cells in local scopes and outside of them. -/
structure Runner.Mirrors (plain : Runner) (cells : Bool → Runner) : Prop where
  evaluate : ∀ {W : World} {S : Scopes} {pending : Option String} {e : Expr Hops} {m m' : Machine} (b : Bool),
    m.Mirrors W S m' → e.Scoped true S pending →
    Eval.Matches W (plain.evaluate e) ((cells b).evaluate e.erased) (fun W v w => v.Alike W w) m m'
  execute : ∀ {W : World} {S : Scopes} {s : Stmt Hops} {m m' : Machine},
    m.Mirrors W S m' → s.Scoped true S →
    Eval.Runs W (plain.execute s) ((cells !S.isEmpty).execute s.erased)
      (fun W₁ n n' => n.Mirrors W₁ (S.declare s.declared) n') m m'

namespace Runner

variable {plain : Runner} {cells : Bool → Runner}

/-- Arguments from left to right, in a world that grows. -/
theorem evaluateAll_matches (hrun : Runner.Mirrors plain cells) (b : Bool) {pending : Option String}
    {es : List (Expr Hops)} (h : m.Mirrors W S m') (hscoped : Expr.Scoped.all true S pending es) :
    Eval.Matches W (plain.evaluateAll es) ((cells b).evaluateAll (Expr.erasedAll es))
      (fun W vs ws => List.Forall₂ (fun v w => v.Alike W w) vs ws) m m' := by
  induction es generalizing W m m' with
  | nil => exact .pure h.alike .nil
  | cons e es ih =>
    obtain ⟨he, hes⟩ := hscoped
    refine (hrun.evaluate b h he).bind fun W₁ n n' v w hpass hvw => ?_
    refine (ih (h.pass hpass) hes).bind fun W₂ o o' vs ws hpass₂ hvws => ?_
    exact .pure hpass₂.alike (.cons (hvw.mono hpass₂.grows) hvws)

/-- Statements in succession, each with the cells of those before it in front. -/
theorem executeAll_runs (hrun : Runner.Mirrors plain cells) {ss : List (Stmt Hops)} (h : m.Mirrors W S m')
    (hscoped : Stmt.AllScoped true S ss) :
    Eval.Runs W (plain.executeAll ss) ((cells !S.isEmpty).executeAll (Stmt.erasedAll ss))
      (fun _ _ _ => True) m m' := by
  induction ss generalizing W S m m' with
  | nil => exact .completed h.alike trivial
  | cons s ss ih =>
    obtain ⟨hs, hss⟩ := hscoped
    refine (hrun.execute h hs).bind fun W₁ n n' c d _ halike _ hcd hmirrors => ?_
    cases hcd with
    | returning hvw => exact .returning halike hvw
    | completed =>
      have hrest := ih (hmirrors rfl) hss
      rw [Scopes.isEmpty_declare] at hrest
      exact hrest

/-- The body of a function, seen from outside. -/
theorem executeAll_matches (hrun : Runner.Mirrors plain cells) :
    BodyRunner.Matches plain.executeAll (cells true).executeAll := by
  intro W scope S ss m m' h hscoped
  exact executeAll_runs hrun h hscoped

/-- Both words are found, in frames on one side and in cells on the other, and the method is bound to the same instance.
-/
theorem superMethod_matches (h : m.Mirrors W S m') {keyword : Reference Hops} {n : Nat}
    (hnote : keyword.note = some (n + 1)) (hsuper : S.hops "super" = some (n + 1))
    (hthis : S.hops "this" = some n) (method : Token) :
    Eval.Matches W (superMethod keyword method) (Cells.superMethod method) (fun W v w => v.Alike W w) m m' := by
  unfold superMethod Cells.superMethod
  rw [hnote]
  refine Matches.get ?_
  refine (Matches.valueOf h.alike h.environment hsuper).bind fun W₁ n n' c d hpass hcd => ?_
  have henv := h.environment.mono hpass.grows
  refine (Matches.valueOf hpass.alike henv hthis).bind fun W₂ o o' v w hpass₂ hvw => ?_
  -- only an object at `this` and a class at `super` let the search for the method begin
  cases hcd with
  | classValue hcd =>
    dsimp only
    have hmethod := (hcd.mono hpass₂.grows).findMethod? method.lexeme
    revert hmethod
    cases Class.findMethod? _ method.lexeme <;> cases Class.findMethod? _ method.lexeme <;>
      intro hmethod <;> cases hmethod
    · exact .fail hpass₂.alike _ _
    · next hfg =>
      exact (Closure.bind_matches hpass₂.alike hfg hvw).bind
        fun _ _ _ _ _ hpass₃ hbound => .pure hpass₃.alike (.function hbound.1)
  | _ => exact .stop hpass₂.alike _

/-- Expressions declare nothing, so that both machines end with the environments they began with, and with values that
are alike. -/
theorem evaluateNode_matches (settings : Settings) (hrun : Runner.Mirrors plain cells)
    {pending : Option String} (h : m.Mirrors W S m') {e : Expr Hops} (hscoped : e.Scoped true S pending) :
    Eval.Matches W (evaluateNode settings plain e) (Cells.evaluateNode settings (cells true) e.erased)
      (fun W v w => v.Alike W w) m m' := by
  cases e with
  | assign target value =>
    obtain ⟨hnote, -, hpending, hvalue⟩ := hscoped
    -- no name is assigned to in its own initializer, so the pending name does not come between
    have hother : target.name.lexeme ∉ pending.toList := by
      intro hmem
      exact hpending rfl (Option.mem_toList.mp hmem)
    rw [Scopes.hops_declare hother] at hnote
    refine (hrun.evaluate true h hvalue).bind fun W₁ n n' v w hpass hvw => ?_
    refine (assign_matches (h.pass hpass) hnote hvw).bind fun W₂ o o' _ _ hpass₂ _ => ?_
    exact .pure hpass₂.alike (hvw.mono hpass₂.grows)
  | binary left operator right =>
    obtain ⟨hleft, -, hright⟩ := hscoped
    refine (hrun.evaluate true h hleft).bind fun W₁ n n' l l' hpass hl => ?_
    refine (hrun.evaluate true (h.pass hpass) hright).bind fun W₂ o o' r r' hpass₂ hr => ?_
    exact binary_matches hpass₂.alike operator (hl.mono hpass₂.grows) hr
  | call callee paren arguments =>
    obtain ⟨hcallee, harguments⟩ := hscoped
    refine (hrun.evaluate true h hcallee).bind fun W₁ n n' f g hpass hfg => ?_
    refine (evaluateAll_matches hrun true (h.pass hpass) harguments).bind
      fun W₂ o o' vs ws hpass₂ hvw => ?_
    exact call_matches settings (executeAll_matches hrun) hpass₂.alike paren (hfg.mono hpass₂.grows) hvw
  | get object name =>
    refine (hrun.evaluate (e := object) true h hscoped).bind fun W₁ n n' v w hpass hvw => ?_
    cases hvw with
    | object haddress horigin => exact Instance.get_matches hpass.alike haddress horigin name
    | _ => exact .fail hpass.alike _ _
  | grouping inner => exact hrun.evaluate (e := inner) true h hscoped
  | literal value =>
    refine .pure h.alike ?_
    cases value with
    | nil => exact .nil
    | bool b => exact .bool b
    | number x => exact .number x
    | string s => exact .string s
  | logical left operator right =>
    obtain ⟨hleft, hright⟩ := hscoped
    refine (hrun.evaluate true h hleft).bind fun W₁ n n' l l' hpass hl => ?_
    rw [hl.isTruthy_eq]
    by_cases htruthy : l.isTruthy = (operator.kind == .or)
    · rw [if_pos htruthy, if_pos htruthy]
      exact .pure hpass.alike hl
    · rw [if_neg htruthy, if_neg htruthy]
      exact hrun.evaluate true (h.pass hpass) hright
  | set object name value =>
    obtain ⟨hobject, hvalue⟩ := hscoped
    refine (hrun.evaluate true h hobject).bind fun W₁ n n' v w hpass hvw => ?_
    cases hvw with
    | object haddress horigin =>
      refine (hrun.evaluate true (h.pass hpass) hvalue).bind fun W₂ o o' v w hpass₂ hvw => ?_
      refine (Matches.setField hpass₂.alike (hpass₂.grows.twin haddress) hvw name.lexeme).bind
        fun W₃ q q' _ _ hpass₃ _ => ?_
      exact .pure hpass₃.alike (hvw.mono hpass₃.grows)
    | _ => exact .fail hpass.alike _ _
  | super keyword method =>
    obtain ⟨n, hnote, hsuper, hthis⟩ := hscoped
    exact superMethod_matches h hnote hsuper hthis method
  | this keyword =>
    obtain ⟨hlexeme, n, hnote, hthis⟩ := hscoped
    exact lookUp_matches h (by rw [hnote, hlexeme, hthis])
  | unary operator right =>
    refine (hrun.evaluate true h hscoped.2).bind fun W₁ n n' v w hpass hvw => ?_
    exact unary_matches hpass.alike operator hvw
  | «variable» reference => exact lookUp_matches h hscoped
  | unknown => exact hscoped.elim

/-! ## Statements

A declaration adds a cell where the other side binds a name. The rules for loops and branches need that their parts
declare nothing. -/

theorem evaluateOption_matches (hrun : Runner.Mirrors plain cells) (b : Bool) {pending : Option String}
    (h : m.Mirrors W S m') {e : Option (Expr Hops)} (hscoped : Expr.OptionScoped true S pending e) :
    Eval.Matches W (plain.evaluateOption e) ((cells b).evaluateOption (e.map Expr.erased))
      (fun W v w => v.Alike W w) m m' := by
  cases e with
  | none => exact .pure h.alike .nil
  | some e => exact hrun.evaluate b h hscoped

/-- The body of a loop declares nothing, so that each round begins as the first one did. -/
theorem repeatWhile_runs {ptest ctest : Eval Bool} {pbody cbody : Eval Completion}
    (htest : ∀ {W : World} {m m' : Machine}, m.Mirrors W S m' →
      Eval.Matches W ptest ctest (fun _ b c => c = b) m m')
    (hbody : ∀ {W : World} {m m' : Machine}, m.Mirrors W S m' →
      Eval.Runs W pbody cbody (fun W₁ n n' => n.Mirrors W₁ S n') m m')
    (rounds : Nat) (h : m.Mirrors W S m') :
    Eval.Runs W (repeatWhile ptest pbody rounds) (repeatWhile ctest cbody rounds)
      (fun W₁ n n' => n.Mirrors W₁ S n') m m' := by
  -- a round leaves both machines as they have to be for the next one
  induction rounds generalizing W m m' with
  | zero => exact .stop h.alike _
  | succ rounds ih =>
    refine Runs.after (htest h) fun W₁ n n' b c hpass hbc => ?_
    subst hbc
    have h₁ := h.pass hpass
    cases c with
    | false => exact .completed h₁.alike h₁
    | true =>
      refine (hbody h₁).bind fun W₂ o o' c d _ halike _ hcd hmirrors => ?_
      cases hcd with
      | returning hvw => exact .returning halike hvw
      | completed => exact ih (hmirrors rfl)

/-- A statement binds the same names in the innermost frame and in the static environment, in the same order. -/
theorem executeNode_runs (settings : Settings) (hrun : Runner.Mirrors plain cells) (h : m.Mirrors W S m')
    {s : Stmt Hops} (hscoped : s.Scoped true S) :
    Eval.Runs W (executeNode settings plain s) (Cells.executeNode settings cells (!S.isEmpty) s.erased)
      (fun W₁ n n' => n.Mirrors W₁ (S.declare s.declared) n') m m' := by
  -- A statement that declares nothing leaves the scopes as they are.
  have hkeep : ∀ {W₁ : World} {n n' : Machine}, m.Passes W m' W₁ n n' → n.Mirrors W₁ (S.declare []) n' := by
    intro W₁ n n' hpass
    rw [Scopes.declare_nil_right]
    exact h.pass hpass
  cases s with
  | block body =>
    obtain ⟨hframe, hnew⟩ := h.alike.heap.allocFrame []
    have hgrows := W.grows_addFrame (a := m.heap.cells.size) (some m.heap.cells.size)
    have hinner : Machine.Mirrors (W.addFrame m.heap.cells.size) ([] :: S)
        { m with
          heap := (m.heap.alloc (.frame [])).2
          environment := m.heap.cells.size :: m.environment }
        { m' with environment := m'.environment } := by
      refine ⟨⟨hframe, h.alike.printed, h.alike.readings⟩, ?_, fun {a _ _} ha hp => ?_⟩
      · exact (h.environment.mono hgrows).enter (Or.inl rfl)
      · cases ha
        exact absurd (W.frame_of_place hp) hnew
    have hbody := (executeAll_matches hrun hinner hscoped).within
      (m := { m with heap := (m.heap.alloc (.frame [])).2 }) hnew hgrows
    -- Only the side of frames has a new frame; from there on the body runs on both.
    have hblock : Sim (executeNode settings plain (.block body))
        (Cells.executeNode settings cells (!S.isEmpty) (Stmt.block body).erased)
        (fun n n' c d => ∃ W₁, Machine.Passes W { m with heap := (m.heap.alloc (.frame [])).2 } m' W₁ n n' ∧
          c.Alike W₁ d) m m' :=
      hbody
    refine Sim.mono hblock fun n n' c d hR => ?_
    obtain ⟨W₁, hpass, hcd⟩ := hR
    have hpass' : m.Passes W m' W₁ n n' := ⟨hpass.grows, hpass.alike, hpass.left, hpass.right⟩
    exact ⟨W₁, hpass.grows.weaken _, hpass.alike, hpass.left, hcd, fun _ => hkeep hpass'⟩
  | expression value =>
    refine Runs.after (hrun.evaluate (e := value) (!S.isEmpty) h hscoped) fun W₁ n n' v w hpass _ => ?_
    exact .completed hpass.alike (hkeep hpass)
  | function declaration =>
    obtain ⟨hfresh, -, hdeclared⟩ := hscoped
    exact Closure.declare_runs h hfresh hdeclared
  | «class» name heritage methods => exact (declareClass_declares h hscoped).runs
  | «if» condition thenBranch elseBranch =>
    have hbranch : ∀ {s : Stmt Hops} {W₁ : World} {n n' : Machine}, m.Passes W m' W₁ n n' → s.declared = [] →
        s.Scoped true S → Eval.Runs W₁ (plain.execute s) ((cells !S.isEmpty).execute s.erased)
          (fun W₂ o o' => o.Mirrors W₂ (S.declare []) o') n n' := by
      intro s W₁ n n' hpass hdeclared hs
      have hruns := hrun.execute (h.pass hpass) hs
      rw [hdeclared] at hruns
      exact hruns
    cases elseBranch with
    | none =>
      obtain ⟨hcondition, ⟨hdeclared, hthen⟩, -⟩ := hscoped
      refine Runs.after (hrun.evaluate (!S.isEmpty) h hcondition) fun W₁ n n' v w hpass hvw => ?_
      rw [hvw.isTruthy_eq, Stmt.declared, hdeclared]
      by_cases htruthy : v.isTruthy = true
      · rw [if_pos htruthy, if_pos htruthy]
        exact hbranch hpass hdeclared hthen
      · rw [if_neg htruthy, if_neg htruthy]
        exact .completed hpass.alike (hkeep hpass)
    | some elseBranch =>
      obtain ⟨hcondition, ⟨hdeclared, hthen⟩, hdeclared', helse⟩ := hscoped
      refine Runs.after (hrun.evaluate (!S.isEmpty) h hcondition) fun W₁ n n' v w hpass hvw => ?_
      rw [hvw.isTruthy_eq, Stmt.declared, hdeclared, hdeclared']
      by_cases htruthy : v.isTruthy = true
      · rw [if_pos htruthy, if_pos htruthy]
        exact hbranch hpass hdeclared hthen
      · rw [if_neg htruthy, if_neg htruthy]
        exact hbranch hpass hdeclared' helse
  | print value =>
    refine Runs.after (hrun.evaluate (e := value) (!S.isEmpty) h hscoped) fun W₁ n n' v w hpass hvw => ?_
    refine Runs.after (Matches.print hpass.alike hvw.text_eq) fun W₂ o o' _ _ hpass₂ _ => ?_
    exact .completed hpass₂.alike (hkeep (hpass.trans hpass₂))
  | «return» keyword value =>
    refine Runs.after (evaluateOption_matches hrun (!S.isEmpty) h hscoped) fun W₁ n n' v w hpass hvw => ?_
    exact .returning hpass.alike hvw
  | var name initializer =>
    obtain ⟨hfresh, -, hinitializer⟩ := hscoped
    refine Runs.after (evaluateOption_matches hrun (!S.isEmpty) h hinitializer)
      fun W₁ n n' v w hpass hvw => ?_
    exact Eval.declare_runs (h.pass hpass) hfresh hvw
  | «while» condition body =>
    obtain ⟨hcondition, hdeclared, hbody⟩ := hscoped
    rw [Stmt.declared, hdeclared, Scopes.declare_nil_right]
    refine repeatWhile_runs (fun hm => ?_) (fun hm => ?_) settings.rounds h
    · exact (hrun.evaluate (!S.isEmpty) hm hcondition).map fun _ _ _ _ hvw => hvw.isTruthy_eq
    · have hruns := hrun.execute hm hbody
      rw [hdeclared, Scopes.declare_nil_right] at hruns
      exact hruns
  | unknown => exact hscoped.elim

end Runner

/-! ## Whole programs

By induction on the depth. On the first machines there are only the globals, which are the same frame on both sides. -/

/-- Runs match at every depth of nesting, by induction on the depth: without any depth left both sides stop. -/
theorem mirrors_nested (settings : Settings) (n : Nat) :
    Runner.Mirrors ⟨evaluateNested settings n, executeNested settings n⟩
      (fun isLocal => ⟨Cells.evaluate settings n, Cells.execute settings n isLocal⟩) := by
  induction n with
  | zero =>
    refine ⟨fun _ h _ => ?_, fun h _ => ?_⟩
    · exact .stop h.alike .tooDeep
    · exact .stop h.alike .tooDeep
  | succ n ih =>
    refine ⟨fun _ h hscoped => ?_, fun h hscoped => ?_⟩
    · exact Runner.evaluateNode_matches settings ih h hscoped
    · exact Runner.executeNode_runs settings ih h hscoped

/-- A world without frames, cells and identities. -/
def World.empty : World where
  frame _ := False
  place _ _ _ := False
  twin _ _ := False
  frame_of_place h := h
  place_right h := h.elim
  place_left h := h.elim
  twin_right h := h.elim
  twin_left h := h.elim

/-- Both machines have the globals and nothing else. -/
theorem Machine.mirrors_initial : Machine.initial.Mirrors .empty [] Machine.initial := by
  have hglobals : ∀ name, Option.Rel (Value.Alike World.empty)
      ((Machine.initial.heap.vars 0).get? name) ((Machine.initial.heap.vars 0).get? name) := by
    intro name
    change Option.Rel _ (Bindings.get? [("clock", Value.clock)] name) (Bindings.get? [("clock", Value.clock)] name)
    rw [Bindings.get?_singleton]
    split
    · exact .some .clock
    · exact .none
  have houtermost : Machine.initial.heap.IsFrame 0 := ⟨_, rfl⟩
  have hheap : Machine.initial.heap.Alike .empty Machine.initial.heap :=
    ⟨fun h => h.elim, fun h => h.elim, fun h => h.elim, ⟨houtermost, houtermost⟩, hglobals⟩
  exact ⟨⟨hheap, rfl, rfl⟩, ⟨rfl, rfl⟩, fun _ hp => hp.elim⟩

/-- Statements outside of all scopes end the same way and print the same on machines that hold the same. -/
theorem Machine.run_mirrors (settings : Settings) {W : World} {m m' : Machine} (h : m.Mirrors W [] m')
    {ss : List (Stmt Hops)} (hscoped : Stmt.AllScoped true [] ss) :
    (m.run settings ss).1 = (m'.runOnCells settings (Stmt.erasedAll ss)).1 ∧
      (m.run settings ss).2.printed = (m'.runOnCells settings (Stmt.erasedAll ss)).2.printed := by
  have hruns : Eval.Runs W (settings.runner.executeAll ss) ((Cells.runner settings).executeAll (Stmt.erasedAll ss))
      (fun _ _ _ => True) m m' :=
    Runner.executeAll_runs (mirrors_nested settings settings.nesting) h hscoped
  unfold Eval.Runs Eval.Sim at hruns
  unfold Machine.run Machine.runOnCells
  rcases hrun : settings.runner.executeAll ss m with ⟨stop | c, n⟩ <;>
    rcases hrun' : (Cells.runner settings).executeAll (Stmt.erasedAll ss) m' with ⟨stop' | d, n'⟩ <;>
    rw [hrun, hrun'] at hruns
  · obtain ⟨rfl, hprinted⟩ := hruns
    exact ⟨rfl, hprinted.symm⟩
  · exact hruns.elim
  · exact hruns.elim
  · obtain ⟨W₁, -, halike, -⟩ := hruns
    exact ⟨rfl, halike.printed.symm⟩

/-- **Static scoping.** Let a text be parsed and resolved without complaint, and let no initializer of a local
variable assign to that variable. Then the program prints the same lines and ends the same way whether it is run
with the distances that the resolver has noted or on cells, however deeply runs may be nested and however often
loops go round. -/
theorem run_eq_runOnCells (settings : Settings) {source : String} {program : List SourceStmt}
    (hparse : parse (scan source).tokens = some ⟨program, []⟩)
    (hresolve : (resolve program).2.diagnostics = []) (hself : Stmt.NoSelfAssignments false program) :
    (Machine.initial.run settings (resolve program).1).1
        = (Machine.initial.runOnCells settings (Stmt.erasedAll program)).1 ∧
      (Machine.initial.run settings (resolve program).1).2.printed
        = (Machine.initial.runOnCells settings (Stmt.erasedAll program)).2.printed := by
  have hformed : Stmt.AllFormed Token.Spelled program := by
    obtain ⟨program', ds, hparse', hformed⟩ := parse_scan source
    rw [hparse] at hparse'
    cases hparse'
    exact hformed
  obtain ⟨-, -, hclean⟩ := resolve_scoped true hformed fun _ => hself
  obtain ⟨hscoped, herased⟩ := hclean hresolve
  rw [← herased]
  exact Machine.run_mirrors settings Machine.mirrors_initial hscoped

set_option maxRecDepth 2048 in
/-- A function that stands before a declaration goes on printing the global of that name. -/
theorem run_eq_runOnCells_shadowing :
    let source := "var a = \"global\"; \x7b fun show() \x7b print a; \x7d var a = \"local\"; show(); \x7d"
    let name (lexeme : String) : Token := ⟨.identifier, lexeme, .nil, 1⟩
    let declaration (value : String) : SourceStmt := .var (name "a") (some (.literal (.string value)))
    let body : List SourceStmt := [.print (.variable ⟨name "a", ()⟩)]
    let paren : Token := ⟨.rightParen, ")", .nil, 1⟩
    let program : List SourceStmt :=
      [declaration "global",
        .block [.function ⟨name "show", [], body⟩, declaration "local",
          .expression (.call (.variable ⟨name "show", ()⟩) paren [])]]
    let settings : Settings := ⟨10, 10, fun _ => 0⟩
    parse (scan source).tokens = some ⟨program, []⟩ ∧ (resolve program).2.diagnostics = [] ∧
      Stmt.NoSelfAssignments false program ∧
      (Machine.initial.runOnCells settings (Stmt.erasedAll program)).2.printed = #["global"] ∧
      (Machine.initial.run settings (resolve program).1).1
          = (Machine.initial.runOnCells settings (Stmt.erasedAll program)).1 ∧
        (Machine.initial.run settings (resolve program).1).2.printed
          = (Machine.initial.runOnCells settings (Stmt.erasedAll program)).2.printed := by
  intro source name declaration body paren program settings
  -- parsing and resolving are evaluated; the theorem gives the agreement of the runs
  have hparse : parse (scan source).tokens = some ⟨program, []⟩ := by cbv
  have hresolve : (resolve program).2.diagnostics = [] := by cbv
  have hself : Stmt.NoSelfAssignments false program := by
    simp [program, declaration, body, Stmt.NoSelfAssignments, Stmt.NoSelfAssignment, Expr.AssignsTo,
      FunDecl.NoSelfAssignment]
  exact ⟨hparse, hresolve, hself, by cbv, run_eq_runOnCells settings hparse hresolve hself⟩

end LoxLang
