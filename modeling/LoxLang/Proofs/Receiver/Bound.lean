import Mathlib
import LoxLang.Proofs.Receiver.Rules
import LoxLang.Proofs.Run.Sessions

/-!
# What `this` and `super` are bound to

* **`Housing.Reached`** — the machines of programs that are run at home, one after the other.
* **`this_and_super_at_home`** — on each of them the next program does at home what it does anyway.

That a machine is reached says that functions of earlier programs may be called, with the homes that they got there.
-/

namespace LoxLang

/-- Programs without complaints have been run at home, one after the other. -/
inductive Housing.Reached : Housing → Prop
  | initial : Reached .initial
  | run {x : Housing} (h : Reached x) (settings : Settings) {source : String} {parsed : Parsed}
      (hparse : parse (scan source).tokens = some parsed)
      (hresolve : (resolve parsed.program).2.diagnostics = []) :
      Reached (x.run settings (resolve parsed.program).1).2

/-! ## Programs

A program without complaints fits its scopes, and then its run at home is its run. -/

/-- A text without complaints gives a program that fits the scopes outside of everything. -/
theorem scoped_of_resolve {source : String} {parsed : Parsed} (hparse : parse (scan source).tokens = some parsed)
    (hresolve : (resolve parsed.program).2.diagnostics = []) :
    Stmt.AllScoped false [] (resolve parsed.program).1 := by
  obtain ⟨program, ds, hparse', hformed⟩ := parse_scan source
  obtain rfl : parsed = ⟨program, ds⟩ := Option.some.inj (hparse.symm.trans hparse')
  obtain ⟨-, -, hclean⟩ := resolve_scoped false hformed fun heq => by cases heq
  exact (hclean hresolve).1

/-- A program that fits its scopes does at home what it does anyway. -/
theorem Housing.run_eq (settings : Settings) {x : Housing} (hhoused : x.1.heap.Housed x.2)
    {program : List (Stmt Hops)} (hscoped : Stmt.AllScoped false [] program) :
    x.1.run settings program = ((x.run settings program).1, (x.run settings program).2.1) ∧
      (x.run settings program).2.1.heap.Housed (x.run settings program).2.2 := by
  have hat : x.At .outside [] := ⟨hhoused, .topLevel _ _ _⟩
  obtain ⟨result, x', hact, hplain, hlead, -⟩ :=
    HomeRunner.executeAll_follows (nested_follows settings settings.nesting) hat List.not_mem_nil hscoped
  change settings.homeRunner.executeAll .outside program x = (result, x') at hact
  change settings.runner.executeAll program x.1 = (result, x'.1) at hplain
  unfold Machine.run Housing.run
  rw [hact, hplain]
  cases result with
  | ok completion => exact ⟨rfl, hlead.housed⟩
  | error stop => exact ⟨rfl, hlead.housed⟩

/-- The first heap holds no function of a program. -/
theorem Heap.housed_initial : Machine.initial.heap.Housed Housing.initial.2 := by
  constructor
  · intro a name v hv
    rw [(Machine.get?_vars_initial hv).2]
    trivial
  · intro a name v hv
    rw [Machine.get?_fields_initial] at hv
    cases hv

/-- All functions on a machine that is reached have homes, and the machine is outside of all scopes. -/
theorem Housing.Reached.sound {x : Housing} (h : x.Reached) : x.1.heap.Housed x.2 ∧ x.1.At [] := by
  induction h with
  | initial => exact ⟨Heap.housed_initial, Machine.at_initial⟩
  | run h settings hparse hresolve ih =>
    have hscoped := scoped_of_resolve hparse hresolve
    obtain ⟨heq, hhoused⟩ := Housing.run_eq settings ih.1 hscoped
    obtain ⟨-, hat, -⟩ := Machine.run_sound settings ih.2 hscoped
    rw [heq] at hat
    exact ⟨hhoused, hat⟩

/-! ## Sessions

By induction on the requests. Rejected ones leave the machine and the homes alone. -/

namespace Session

/-- A step leaves the machine as it is, or runs a program without complaints on it. -/
theorem machine_step (settings : Settings) (wantsTable : Bool) (stopAfter : Option ArtifactName) (source : String)
    (s : Session) :
    (s.step settings wantsTable stopAfter source).session.machine = s.machine ∨
      ∃ parsed, parse (scan source).tokens = some parsed ∧ (resolve parsed.program).2.diagnostics = [] ∧
        (s.step settings wantsTable stopAfter source).session.machine
          = (s.machine.run settings (resolve parsed.program).1).2 := by
  obtain ⟨program, ds, hparse, hformed⟩ := parse_scan source
  obtain ⟨-, hstatic, -⟩ := resolve_scoped false hformed fun heq => by cases heq
  have hadvances := s.step_advances settings wantsTable stopAfter hparse
  generalize (s.step settings wantsTable stopAfter source).session = s' at hadvances ⊢
  cases hadvances with
  | scanned | parsed | resolved => exact .inl rfl
  | executed htokens hparsed hresolved =>
    have hnone : (resolve program).2.diagnostics = [] := Log.eq_nil_of_hadError hstatic hresolved
    exact .inr ⟨_, hparse, hnone, machine_execute settings _ _⟩

/-- A request leads from a machine that is reached to another one. -/
theorem reached_serve (r : Request) {s : Session} {homes : Homes} (h : Housing.Reached (s.machine, homes)) :
    ∃ homes', Housing.Reached ((s.serve r).session.machine, homes') := by
  have hbegun : (if r.resets then s.resetLog else s).machine = s.machine := by
    cases r.resets <;> rfl
  unfold serve
  rcases machine_step r.settings r.wantsTable r.stopAfter r.source (if r.resets then s.resetLog else s) with
    hsame | ⟨parsed, hparse, hresolve, hrun⟩
  · rw [hsame, hbegun]
    exact ⟨homes, h⟩
  · obtain ⟨heq, -⟩ := Housing.run_eq r.settings h.sound.1 (scoped_of_resolve hparse hresolve)
    rw [hrun, hbegun, heq]
    exact ⟨_, h.run r.settings hparse hresolve⟩

/-- Whatever a session has been asked to do, its machine is reached by the programs that it has executed. -/
theorem reached_after (requests : List Request) {s : Session} {homes : Homes}
    (h : Housing.Reached (s.machine, homes)) : ∃ homes', Housing.Reached ((s.after requests).machine, homes') := by
  induction requests generalizing s homes with
  | nil => exact ⟨homes, h⟩
  | cons r requests ih =>
    obtain ⟨homes', h'⟩ := reached_serve r h
    exact ih h'

end Session

/-- **`this` and `super` are bound on every path.** A program without complaints does at home what it does anyway: it
stops for the same reason, prints the same lines and leaves the same heap, on every machine on which such programs
have been run before. So each `this` gives the instance for which the running method was looked up, and each
`super.m` begins at the class that the surrounding class was declared to extend. The frames that the resolver has
counted out bind just these, for none of the runs stops with a fault. The machine of a session is always one of
those. -/
theorem this_and_super_at_home (settings : Settings) {source : String} {parsed : Parsed}
    (hparse : parse (scan source).tokens = some parsed) (hresolve : (resolve parsed.program).2.diagnostics = []) :
    let program := (resolve parsed.program).1
    (∀ x : Housing, x.Reached →
      x.1.run settings program = ((x.run settings program).1, (x.run settings program).2.1) ∧
        ∀ stop ∈ (x.run settings program).1, stop.Foreseen) ∧
      ∀ requests, ∃ x : Housing, x.Reached ∧ x.1 = (Session.initial.after requests).machine := by
  intro program
  have hscoped := scoped_of_resolve hparse hresolve
  refine ⟨fun x hx => ?_, fun requests => ?_⟩
  · obtain ⟨hhoused, hat⟩ := hx.sound
    obtain ⟨heq, -⟩ := Housing.run_eq settings hhoused hscoped
    obtain ⟨-, -, hforeseen⟩ := Machine.run_sound settings hat hscoped
    rw [heq] at hforeseen
    exact ⟨heq, hforeseen⟩
  · obtain ⟨homes, hreached⟩ := Session.reached_after requests (s := .initial) Housing.Reached.initial
    exact ⟨_, hreached, rfl⟩

set_option maxRecDepth 2048 in
/-- A method that has been stored keeps its instance and the class to begin at, although the name of that class is
assigned to. -/
theorem this_and_super_at_home_stored :
    let source := "class A \x7b m() \x7b print this; \x7d \x7d class B < A \x7b m() \x7b super.m(); \x7d \x7d var f = B().m; A = nil; f();"
    let name (lexeme : String) : Token := ⟨.identifier, lexeme, .nil, 1⟩
    let paren : Token := ⟨.rightParen, ")", .nil, 1⟩
    let this : SourceExpr := .this ⟨⟨.this, "this", .nil, 1⟩, ()⟩
    let super : SourceExpr := .super ⟨⟨.super, "super", .nil, 1⟩, ()⟩ (name "m")
    let program : List SourceStmt :=
      [.class (name "A") none [⟨name "m", [], [.print this]⟩],
        .class (name "B") (some ⟨name "A", ()⟩) [⟨name "m", [], [.expression (.call super paren [])]⟩],
        .var (name "f") (some (.get (.call (.variable ⟨name "B", ()⟩) paren []) (name "m"))),
        .expression (.assign ⟨name "A", ()⟩ (.literal .nil)),
        .expression (.call (.variable ⟨name "f", ()⟩) paren [])]
    let settings : Settings := ⟨10, 10, fun _ => 0⟩
    parse (scan source).tokens = some ⟨program, []⟩ ∧ (resolve program).2.diagnostics = [] ∧
      (Housing.initial.run settings (resolve program).1).2.1.printed = #["B instance"] ∧
      Housing.initial.1.run settings (resolve program).1
        = ((Housing.initial.run settings (resolve program).1).1,
            (Housing.initial.run settings (resolve program).1).2.1) := by
  intro source name paren this super program settings
  have hparse : parse (scan source).tokens = some ⟨program, []⟩ := by cbv
  have hresolve : (resolve program).2.diagnostics = [] := by cbv
  -- the session is only begun here, and the run on it is the one that is evaluated
  obtain ⟨hreached, -⟩ := this_and_super_at_home settings hparse hresolve
  obtain ⟨heq, -⟩ := hreached Housing.initial Housing.Reached.initial
  dsimp only at heq
  exact ⟨hparse, hresolve, by cbv, heq⟩

end LoxLang
