import LoxLang.Proofs.Parse.Printed
import LoxLang.Proofs.Run.Logs
import LoxLang.Proofs.Run.Soundness
import LoxLang.Proofs.Scope.Resolved
import LoxLang.Session

/-!
# Sessions without faults

* **`sessions_without_fault`** — whatever texts a session runs one after the other, no stage meets a fault, and
  every resolved reference finds what it stands for.

A session keeps one invariant: its machine is outside of all scopes, with a good heap. It holds after every step,
those included that a mistake of the program has ended.
-/

namespace LoxLang

/-- What a session is asked to do next: whether the diagnostics so far are forgotten first, and what is run how. -/
structure Request where
  resets : Bool
  settings : Settings
  source : String
  wantsTable : Bool
  stopAfter : Option ArtifactName

namespace Session

/-- The step for a request. -/
def serve (s : Session) (r : Request) : Step :=
  (if r.resets then s.resetLog else s).step r.settings r.wantsTable r.stopAfter r.source

/-- The session after requests in their order. -/
def after (s : Session) (requests : List Request) : Session :=
  requests.foldl (fun s r => (s.serve r).session) s

end Session

/-- What a stop of a run reports. -/
def Stop.reports : Option Stop → List Diagnostic
  | some (.error d) => [d]
  | _ => []

namespace Session

/-! ## What execution leaves

A session is a machine with a table and a log; execution changes the machine and reports what stopped it. -/

/-- The machine is the one that the run leaves. -/
theorem machine_execute (settings : Settings) (program : List (Stmt Hops)) (s : Session) :
    (s.execute settings program).2.machine = (s.machine.run settings program).2 := by
  obtain ⟨machine, table, log⟩ := s
  unfold execute
  dsimp only
  rcases machine.run settings program with ⟨stop?, m'⟩
  match stop? with
  | none | some (.error d) | some (.fault f) | some .tooDeep | some .tooLong => rfl

/-- Execution enters nothing in the table. -/
theorem table_execute (settings : Settings) (program : List (Stmt Hops)) (s : Session) :
    (s.execute settings program).2.table = s.table := by
  obtain ⟨machine, table, log⟩ := s
  unfold execute
  dsimp only
  rcases machine.run settings program with ⟨stop?, m'⟩
  match stop? with
  | none | some (.error d) | some (.fault f) | some .tooDeep | some .tooLong => rfl

/-- There is one more diagnostic if the program made a mistake, and none otherwise. -/
theorem diagnostics_execute (settings : Settings) (program : List (Stmt Hops)) (s : Session) :
    (s.execute settings program).2.log.diagnostics
      = s.log.diagnostics ++ Stop.reports (s.machine.run settings program).1 := by
  obtain ⟨machine, table, log⟩ := s
  unfold execute
  dsimp only
  rcases machine.run settings program with ⟨stop?, m'⟩
  match stop? with
  | some (.error d) => exact Log.diagnostics_report log d
  | none | some (.fault f) | some .tooDeep | some .tooLong => exact (List.append_nil _).symm

/-! ## How far a step gets

A step ends after the first stage that finds something wrong. The four cases are listed once, so that a property of
steps is shown case by case. -/

/-- A session with what the resolver has found. -/
def enter (s : Session) (found : Findings) : Session :=
  { s.report found.diagnostics with table := s.table ++ found.entries }

/-- The session that a step leaves, by the stage at which it ends. -/
inductive Advances (settings : Settings) (stopAfter : Option ArtifactName) (source : String) (parsed : Parsed)
    (s : Session) : Session → Prop
  | scanned (htokens : stopAfter = some .tokens) :
      Advances settings stopAfter source parsed s (s.report (scan source).diagnostics)
  | parsed (hends : ((s.report (scan source).diagnostics).report parsed.diagnostics).log.hadError ∨
        stopAfter = some .ast) :
      Advances settings stopAfter source parsed s ((s.report (scan source).diagnostics).report parsed.diagnostics)
  | resolved (htokens : stopAfter ≠ some .tokens)
      (hparsed : ¬ (((s.report (scan source).diagnostics).report parsed.diagnostics).log.hadError ∨
        stopAfter = some .ast)) :
      Advances settings stopAfter source parsed s
        (((s.report (scan source).diagnostics).report parsed.diagnostics).enter (resolve parsed.program).2)
  | executed (htokens : stopAfter ≠ some .tokens)
      (hparsed : ¬ (((s.report (scan source).diagnostics).report parsed.diagnostics).log.hadError ∨
        stopAfter = some .ast))
      (hresolved : ¬ (((s.report (scan source).diagnostics).report parsed.diagnostics).enter
        (resolve parsed.program).2).log.hadError) :
      Advances settings stopAfter source parsed s
        ((((s.report (scan source).diagnostics).report parsed.diagnostics).enter
          (resolve parsed.program).2).execute settings (resolve parsed.program).1).2

/-- The stages are tried in their order, as in the definition. -/
theorem step_advances (settings : Settings) (wantsTable : Bool) (stopAfter : Option ArtifactName) {source : String}
    {parsed : Parsed} (hparse : parse (scan source).tokens = some parsed) (s : Session) :
    Advances settings stopAfter source parsed s (s.step settings wantsTable stopAfter source).session := by
  unfold step
  dsimp only
  -- one case for each place where the step may end
  split
  case isTrue htokens => exact .scanned htokens
  case isFalse htokens =>
  rw [hparse]
  dsimp only
  split
  case isTrue hends => exact .parsed hends
  case isFalse hparsed =>
  split
  · exact .resolved htokens hparsed
  split
  case isTrue => exact .resolved htokens hparsed
  case isFalse hends => exact .executed htokens hparsed fun herror => hends (.inl herror)

end Session

/-- A stop that only the limits of the settings bring about. -/
def Stop.IsLimit : Stop → Prop
  | .tooDeep | .tooLong => True
  | .error _ | .fault _ => False

/-! ## The stages

A program without complaints fits its scopes, and this is all that the machine has to know of it. -/

/-- A program that fits its scopes is run without a fault, and finds what it refers to. -/
theorem Machine.run_sound (settings : Settings) {m : Machine} (h : m.At []) {program : List (Stmt Hops)}
    (hscoped : Stmt.AllScoped false [] program) :
    m.runWatched settings program = m.run settings program ∧ (m.run settings program).2.At [] ∧
      ∀ stop ∈ (m.run settings program).1, stop.Foreseen := by
  obtain ⟨heq, hlead, hpost⟩ := settings.executeAll_sound h hscoped
  unfold Machine.runWatched Machine.run
  rw [heq]
  rcases hrun : settings.runner.executeAll program m with ⟨result, m'⟩
  rw [hrun] at hlead hpost
  cases result with
  | ok completion => exact ⟨rfl, h.lead hlead, fun _ hstop => by cases hstop⟩
  | error stop =>
    refine ⟨rfl, h.lead hlead, fun stop' hstop => ?_⟩
    cases hstop
    exact hpost

/-- A mistake of the program goes to the log, so that only limits are left to stop for. -/
theorem Session.execute_sound (settings : Settings) {s : Session} (h : s.machine.At [])
    {program : List (Stmt Hops)} (hscoped : Stmt.AllScoped false [] program) :
    (s.execute settings program).2.machine.At [] ∧
      ∀ stop ∈ (s.execute settings program).1, stop.IsLimit := by
  obtain ⟨-, hat, hforeseen⟩ := Machine.run_sound settings h hscoped
  obtain ⟨machine, table, log⟩ := s
  unfold Session.execute
  dsimp only at hat hforeseen ⊢
  rcases hrun : machine.run settings program with ⟨stop?, m'⟩
  rw [hrun] at hat hforeseen
  -- a mistake is no stop of the session, and a fault was ruled out
  match stop? with
  | none => exact ⟨hat, fun _ hstop => by cases hstop⟩
  | some (.error d) => exact ⟨hat, fun _ hstop => by cases hstop⟩
  | some (.fault f) => exact absurd rfl (hforeseen _ rfl f)
  | some .tooDeep | some .tooLong =>
    refine ⟨hat, fun _ hstop => ?_⟩
    cases hstop
    trivial

/-! ## Steps

The invariant is kept whatever the text is, for if there are complaints then nothing is run. -/

/-- A step from outside of all scopes leads outside of all scopes again, and only limits stop it. -/
theorem Session.step_sound (settings : Settings) (wantsTable : Bool) (stopAfter : Option ArtifactName)
    (source : String) {s : Session} (h : s.machine.At []) :
    (s.step settings wantsTable stopAfter source).session.machine.At [] ∧
      ∀ stop ∈ (s.step settings wantsTable stopAfter source).stop?, stop.IsLimit := by
  obtain ⟨program, ds, hparse, hformed⟩ := parse_scan source
  obtain ⟨hfault, hstatic, hclean⟩ := resolve_scoped false hformed fun heq => by cases heq
  unfold Session.step
  dsimp only
  split
  · exact ⟨h, fun _ hstop => by cases hstop⟩
  rw [hparse]
  dsimp only
  split
  · exact ⟨h, fun _ hstop => by cases hstop⟩
  rw [hfault]
  dsimp only
  split
  · exact ⟨h, fun _ hstop => by cases hstop⟩
  -- The program is executed, so there was no complaint about it.
  next hproceeds =>
    have hnone : (resolve program).2.diagnostics = [] :=
      Log.eq_nil_of_hadError hstatic fun herror => hproceeds (Or.inl herror)
    refine Session.execute_sound settings ?_ (hclean hnone).1
    exact h

/-- A request is a step with settings of its own. -/
theorem Session.serve_sound {s : Session} (h : s.machine.At []) (r : Request) :
    (s.serve r).session.machine.At [] ∧ ∀ stop ∈ (s.serve r).stop?, stop.IsLimit := by
  unfold Session.serve
  cases r.resets
  · exact Session.step_sound _ _ _ _ h
  · exact Session.step_sound _ _ _ _ h

theorem Session.after_sound {s : Session} (h : s.machine.At []) (requests : List Request) :
    (s.after requests).machine.At [] := by
  induction requests generalizing s with
  | nil => exact h
  | cons r requests ih => exact ih (Session.serve_sound h r).1

/-- At first only the clock is bound. -/
theorem Machine.get?_vars_initial {a : Address} {name : String} {v : Value}
    (hv : (Machine.initial.heap.vars a).get? name = some v) : name = "clock" ∧ v = .clock := by
  cases a with
  | zero =>
    change Bindings.get? [("clock", Value.clock)] name = some v at hv
    rw [Bindings.get?_singleton] at hv
    split at hv
    case isTrue hname => exact ⟨hname.symm, (Option.some.inj hv).symm⟩
    case isFalse => cases hv
  | succ a => cases hv

/-- There are no instances at the beginning. -/
theorem Machine.get?_fields_initial (a : Address) (name : String) :
    (Machine.initial.heap.fields a).get? name = none := by
  cases a <;> rfl

/-- The first machine is outside of all scopes, and its heap is good. -/
theorem Machine.at_initial : Machine.initial.At [] := by
  refine ⟨⟨fun {a name v} hv => ?_, fun {a name v} hv => ?_⟩, Environment.fits_nil.mpr rfl⟩
  · obtain ⟨rfl, rfl⟩ := Machine.get?_vars_initial hv
    exact ⟨trivial, fun h => absurd h (by decide), fun h => absurd h (by decide)⟩
  · rw [Machine.get?_fields_initial] at hv
    cases hv

/-- **No session meets a fault.** After any requests, the next one ends or is stopped by a limit of its settings
only. The printer and the resolver answer on its program without a fault; and if there is no complaint about the
program, its run on the machine of the session is the run under watch, in which every resolved reference that
is executed finds its frame and its name exactly where it notes, and a reference to a superclass a class and an
instance. -/
theorem sessions_without_fault (requests : List Request) (r : Request) :
    let s := Session.initial.after requests
    (∀ stop ∈ (s.serve r).stop?, stop.IsLimit) ∧
      ∃ program ds, parse (scan r.source).tokens = some ⟨program, ds⟩ ∧ Succeeds (programText program) ∧
        (resolve program).2.fault? = none ∧
        ((resolve program).2.diagnostics = [] →
          s.machine.runWatched r.settings (resolve program).1 = s.machine.run r.settings (resolve program).1 ∧
            ∀ stop ∈ (s.machine.run r.settings (resolve program).1).1, stop.Foreseen) := by
  intro s
  have hat : s.machine.At [] := Session.after_sound Machine.at_initial requests
  obtain ⟨program, ds, hparse, hformed⟩ := parse_scan r.source
  obtain ⟨hfault, -, hclean⟩ := resolve_scoped false hformed fun heq => by cases heq
  refine ⟨(Session.serve_sound hat r).2, program, ds, hparse, programText_succeeds hformed, hfault, fun hnone => ?_⟩
  obtain ⟨heq, -, hforeseen⟩ := Machine.run_sound r.settings hat (hclean hnone).1
  exact ⟨heq, hforeseen⟩

end LoxLang
