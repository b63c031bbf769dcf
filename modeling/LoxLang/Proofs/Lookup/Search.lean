import Mathlib
import LoxLang.Proofs.Lookup.Evaluator
import LoxLang.Proofs.Run.Sessions

/-!
# Resolved look-ups agree with the dynamic search

* **`lookups_agree_with_search`** — in a program in which no local scope declares a name behind a function that has
  captured it, the resolver's distances lead where a search through the frames would.
-/

namespace LoxLang

/-! ## Whole programs

At the start there is only the frame of the globals, which is under no ceiling. -/

/-- A program that is steady outside of all scopes agrees with the search on any machine there. -/
theorem Machine.run_agrees (settings : Settings) {K : Ceilings} {m : Machine} (h : m.Placed K [] [] [])
    {program : List (Stmt Hops)} (hsteady : Stmt.AllSteady [] [] [] program) :
    m.runCompared settings program = m.run settings program := by
  have henv : m.environment = .globals := Environment.fits_nil.mp h.scopes.fits
  have hroom : m.HasRoom K (Stmt.declaredAll program) := by
    intro a ha x _
    rw [henv] at ha
    obtain rfl : 0 = a := Option.some.inj ha
    exact h.settled.globals x
  have heq := (settings.comparer_agrees h hsteady hroom).1
  unfold Machine.runCompared Machine.run
  rewrite [heq]
  rfl

/-- At first there are only the globals, which bind the clock. -/
theorem Machine.placed_initial : Machine.initial.Placed (fun _ _ => True) [] [] [] := by
  have houtermost : Machine.initial.heap.IsFrame 0 := ⟨_, rfl⟩
  constructor
  case settled =>
    constructor
    case outermost => exact houtermost
    case globals => exact fun _ => trivial
    case bounded => exact fun _ => trivial
    case vars =>
      intro a x v hv
      rw [(Machine.get?_vars_initial hv).2]
      trivial
    case fields =>
      intro a x v hv
      rw [Machine.get?_fields_initial] at hv
      cases hv
  case scopes =>
    exact ⟨Environment.fits_nil.mpr rfl, Environment.under_nil.mpr rfl, List.nodup_singleton 0,
      List.forall_mem_singleton.mpr houtermost⟩
  case under => exact Environment.under_nil.mpr rfl

/-- **Resolved look-ups agree with the dynamic search.** Of a program without complaints in which no local scope
declares a name behind a function that has captured it, and no initializer of a local variable assigns to that variable,
the run is the compared one and meets no fault: whenever a variable or `this` is read or a variable is assigned, a
search through the frames of the current environment ends in the frame that lies as many steps out as the resolver has
noted, or in the globals if it has noted nothing; and the access fails for an undefined variable exactly if the search
finds no frame. -/
theorem lookups_agree_with_search (settings : Settings) {source : String} {program : List SourceStmt}
    (hparse : parse (scan source).tokens = some ⟨program, []⟩) (hresolve : (resolve program).2.diagnostics = [])
    (hstable : CaptureStable program) :
    Machine.initial.runCompared settings (resolve program).1 = Machine.initial.run settings (resolve program).1 ∧
      ∀ stop ∈ (Machine.initial.run settings (resolve program).1).1, stop.Foreseen := by
  have hformed : Stmt.AllFormed Token.Spelled program := by
    obtain ⟨program', ds, hparse', hformed⟩ := parse_scan source
    rw [hparse] at hparse'
    cases hparse'
    exact hformed
  obtain ⟨-, -, hclean⟩ := resolve_scoped true hformed fun _ => hstable.noSelfAssignments
  obtain ⟨hscoped, herased⟩ := hclean hresolve
  obtain ⟨-, -, hloose⟩ := resolve_scoped false hformed fun heq => by cases heq
  -- whether a program is stable does not depend on the notes of the resolver
  have hresolved : ∀ s ∈ (resolve program).1, s.Stable := by
    apply (Stmt.forall_stable_mapAllNotes (fun _ => none) _).mp
    show ∀ s ∈ Stmt.erasedAll (resolve program).1, s.Stable
    rw [herased]
    exact (Stmt.forall_stable_mapAllNotes (fun _ => none) program).mpr hstable.stable
  have hsteady := Stmt.allSteady_topLevel hscoped hresolved
  have heq := Machine.run_agrees settings Machine.placed_initial hsteady
  obtain ⟨-, -, hforeseen⟩ := Machine.run_sound settings Machine.at_initial (hloose hresolve).1
  exact ⟨heq, hforeseen⟩

set_option maxRecDepth 2048 in
/-- The frame of a captured variable gets another variable before the function is called. -/
theorem lookups_agree_with_search_growing :
    let source := "\x7b var a = \"one\"; fun show() \x7b a = \"two\"; print a; \x7d var b = \"three\"; show(); \x7d"
    let name (lexeme : String) : Token := ⟨.identifier, lexeme, .nil, 1⟩
    let declaration (lexeme value : String) : SourceStmt := .var (name lexeme) (some (.literal (.string value)))
    let body : List SourceStmt :=
      [.expression (.assign ⟨name "a", ()⟩ (.literal (.string "two"))), .print (.variable ⟨name "a", ()⟩)]
    let paren : Token := ⟨.rightParen, ")", .nil, 1⟩
    let program : List SourceStmt :=
      [.block [declaration "a" "one", .function ⟨name "show", [], body⟩, declaration "b" "three",
        .expression (.call (.variable ⟨name "show", ()⟩) paren [])]]
    let settings : Settings := ⟨10, 10, fun _ => 0⟩
    parse (scan source).tokens = some ⟨program, []⟩ ∧ (resolve program).2.diagnostics = [] ∧ CaptureStable program ∧
      (Machine.initial.run settings (resolve program).1).2.printed = #["two"] ∧
      Machine.initial.runCompared settings (resolve program).1 = Machine.initial.run settings (resolve program).1 ∧
        ∀ stop ∈ (Machine.initial.run settings (resolve program).1).1, stop.Foreseen := by
  intro source name declaration body paren program settings
  have hparse : parse (scan source).tokens = some ⟨program, []⟩ := by cbv
  have hresolve : (resolve program).2.diagnostics = [] := by cbv
  -- `b` is declared behind the function that captures `a`, and nothing declares `a` again
  have hstable : CaptureStable program := by
    constructor
    · simp [program, declaration, body, name, Stmt.Stable, Stmt.ScopeStable, FunDecl.Stable, Stmt.Captures,
        FunDecl.Refers, Stmt.RefersAll, Stmt.Refers, Expr.Refers, Stmt.declaredAll, Stmt.declared]
    · simp [program, declaration, body, Stmt.NoSelfAssignments, Stmt.NoSelfAssignment, Expr.AssignsTo,
        FunDecl.NoSelfAssignment]
  exact ⟨hparse, hresolve, hstable, by cbv, lookups_agree_with_search settings hparse hresolve hstable⟩

-- Without the condition the two part: the function has been resolved before its variable gets a namesake nearby.
set_option maxRecDepth 2048 in
example :
    let name (lexeme : String) : Token := ⟨.identifier, lexeme, .nil, 1⟩
    let declaration (value : String) : SourceStmt := .var (name "a") (some (.literal (.string value)))
    let body : List SourceStmt := [.print (.variable ⟨name "a", ()⟩)]
    let call : SourceStmt := .expression (.call (.variable ⟨name "show", ()⟩) ⟨.rightParen, ")", .nil, 1⟩ [])
    let program := [declaration "global", .block [.function ⟨name "show", [], body⟩, declaration "local", call]]
    (Machine.initial.runCompared ⟨10, 10, fun _ => 0⟩ (resolve program).1).1 = some (.fault .absent) := by
  cbv

end LoxLang
