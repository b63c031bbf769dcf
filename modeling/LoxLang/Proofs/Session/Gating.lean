import LoxLang.CommandLine
import LoxLang.Proofs.Run.Logs
import LoxLang.Proofs.Run.Outcomes
import LoxLang.Proofs.Scope.Violations

/-!
# Errors as gates

A step runs its stages one after the other, and each stage runs only if the ones before it had nothing to complain
about. What a step leaves behind tells how far it came:

* **`Step.Gated`** — what is left of the machine, the table and the log, whatever they were before.
* **`Session.step_gated`** — every step on an empty log leaves that.
* **`errors_gate`** — so do scripts, whose exit code tells the sort of error.

The diagnostics of the stages are told apart by their stage, so the log alone says which stages complained.

The log is compared as a whole. Since the complaints of a stage carry its name, a log that holds none of a stage tells
that the stage was silent or did not run.
-/

namespace LoxLang

/-! ## What the stages say

Each stage reports under its own name. A log therefore tells which stages have complained. -/

/-- There is a diagnostic of one of the stages. -/
def Log.Has (log : Log) (stages : List Stage) : Prop :=
  ∃ d ∈ log.diagnostics, d.stage ∈ stages

/-- A log without errors has none of a stage before the run that were reported last. -/
theorem Log.eq_nil_of_stage {log : Log} {ds : List Diagnostic} {stage : Stage} (hds : ∀ d ∈ ds, d.stage = stage)
    (hstage : stage ≠ .runtime) (h : ¬ (log.append ds).hadError = true) : ds = [] := by
  apply Log.eq_nil_of_hadError _ h
  intro d hd
  rw [Diagnostic.isRuntime, hds d hd, decide_eq_false hstage]

/-- Complaints about pieces are of the scanner. -/
theorem diagnosticsFrom_stage (line : Nat) (ps : List Piece) :
    ∀ d ∈ diagnosticsFrom line ps, d.stage = .scan := by
  induction ps generalizing line with
  | nil => exact List.forall_mem_nil _
  | cons p ps ih =>
    show ∀ d ∈ (p.diagnostic? _).toList ++ _, d.stage = .scan
    refine List.forall_mem_append.mpr ⟨fun d hd => ?_, ih _⟩
    cases p with
    | unexpected c =>
      rw [List.mem_singleton.mp hd]
    | unterminated rest => rw [List.mem_singleton.mp hd]
    | blank | newline | comment | token => cases hd

theorem scan_stage (source : String) : ∀ d ∈ (scan source).diagnostics, d.stage = .scan :=
  diagnosticsFrom_stage 1 _

/-- Complaints about tokens are of the parser. -/
theorem parse_stage {tokens : List Token} {parsed : Parsed} (h : parse tokens = some parsed) :
    ∀ d ∈ parsed.diagnostics, d.stage = .parse := by
  intro d hd
  obtain ⟨cause, t, -, rfl⟩ := parse_complaints h d hd
  rfl

/-- A rule that is broken is one for the resolver, and it is broken at a token. -/
theorem Place.violations_at (p : Place) : ∀ d ∈ p.violations, ∃ cause t, d = .ofToken .resolve cause t := by
  -- a rule is broken at one token or at none, or at each token of a list
  have hone : ∀ (c : Prop) [Decidable c] (cause : Cause) (t : Token),
      ∀ d ∈ (if c then [Diagnostic.ofToken .resolve cause t] else []), ∃ cause t, d = .ofToken .resolve cause t := by
    intro c _ cause t d hd
    split at hd
    · exact ⟨cause, t, List.mem_singleton.mp hd⟩
    · cases hd
  have hmap : ∀ (cause : Cause) (ts : List Token), ∀ d ∈ ts.map (Diagnostic.ofToken .resolve cause),
      ∃ cause t, d = .ofToken .resolve cause t := by
    intro cause ts d hd
    obtain ⟨t, -, rfl⟩ := List.mem_map.mp hd
    exact ⟨cause, t, rfl⟩
  obtain ⟨E, part⟩ := p
  cases part with
  | scope names => exact hmap _ _
  | read name => exact hone _ _ _
  | this keyword => exact hone _ _ _
  | super keyword =>
    rw [Place.violations]
    split
    · exact hmap _ [keyword]
    · exact hmap _ [keyword]
    · exact List.forall_mem_nil _
  | «return» keyword hasValue =>
    rw [Place.violations]
    split
    · exact hmap _ [keyword]
    · exact hone _ _ _
    · exact List.forall_mem_nil _
  | «class» name superclass? => exact hmap _ _

/-- The resolver complains at tokens. -/
theorem resolve_complaints {tokens : List Token} {parsed : Parsed} (h : parse tokens = some parsed) :
    ∀ d ∈ (resolve parsed.program).2.diagnostics, ∃ cause t, d = .ofToken .resolve cause t := by
  obtain ⟨w, rest, program, ds, -, -, -, hparse, hformed, -⟩ := parse_ended (ended_of_parse h)
  obtain rfl : parsed = ⟨program, ds⟩ := Option.some.inj (h.symm.trans hparse)
  have hperm := (resolve_complains (P := fun _ => True) (hformed _ fun _ _ => trivial)).2
  intro d hd
  obtain ⟨p, -, hp⟩ := List.mem_flatMap.mp (hperm.subset hd)
  exact p.violations_at d hp

/-- Complaints about a program are of the resolver. -/
theorem resolve_stage {tokens : List Token} {parsed : Parsed} (h : parse tokens = some parsed) :
    ∀ d ∈ (resolve parsed.program).2.diagnostics, d.stage = .resolve := by
  intro d hd
  obtain ⟨cause, t, rfl⟩ := resolve_complaints h d hd
  rfl

/-- A program that is resolved without complaint returns nowhere outside of its functions. -/
theorem anyReturns_resolve {source : String} {parsed : Parsed} (h : parse (scan source).tokens = some parsed)
    (hclean : (resolve parsed.program).2.diagnostics = []) :
    Stmt.anyReturns (resolve parsed.program).1 = false := by
  obtain ⟨program, ds, hparse, hformed⟩ := parse_scan source
  obtain rfl : parsed = ⟨program, ds⟩ := Option.some.inj (h.symm.trans hparse)
  have hperm := (resolve_complains hformed).2
  rw [hclean] at hperm
  have hsource := anyReturns_of_violations hperm.nil_eq.symm
  obtain ⟨-, -, hscoped⟩ := resolve_scoped false hformed fun heq => by cases heq
  -- the notes that the resolver leaves make no difference
  have herased := (hscoped hclean).2
  have hreturns := congrArg Stmt.anyReturns herased
  rw [Stmt.erasedAll, Stmt.erasedAll, Stmt.anyReturns_mapAllNotes, Stmt.anyReturns_mapAllNotes] at hreturns
  rw [hreturns, hsource]

/-! ## Statements in order

A run executes its statements one after the other, up to the first that stops. -/

/-- Each of the statements runs to its end, one after the other. -/
def Runner.Completes (run : Runner) : List (Stmt Hops) → Machine → Machine → Prop
  | [], m, m' => m' = m
  | s :: ss, m, m'' => ∃ m', run.execute s m = (.ok .completed, m') ∧ run.Completes ss m' m''

/-- How the statements of a program are executed on a machine, with what is left behind: all of them run to their
end, or all before the first one that stops. -/
inductive Runner.Ran (run : Runner) (program : List (Stmt Hops)) (m : Machine) : Option Stop → Machine → Prop
  | completed {m' : Machine} (h : run.Completes program m m') : run.Ran program m none m'
  | stopped {done rest : List (Stmt Hops)} {s : Stmt Hops} {m₁ m' : Machine} {stop : Stop}
      (hprogram : program = done ++ s :: rest) (hdone : run.Completes done m m₁)
      (hstop : run.execute s m₁ = (.error stop, m')) : run.Ran program m (some stop) m'

theorem Runner.Ran.cons {run : Runner} {s : Stmt Hops} {ss : List (Stmt Hops)} {m m₁ m' : Machine}
    {stop? : Option Stop} (hs : run.execute s m = (.ok .completed, m₁)) (h : run.Ran ss m₁ stop? m') :
    run.Ran (s :: ss) m stop? m' := by
  cases h with
  | completed hss => exact .completed ⟨m₁, hs, hss⟩
  | @stopped done rest s' m₂ _ stop hprogram hdone hstop =>
    have hcons : s :: ss = (s :: done) ++ s' :: rest := by rw [hprogram, List.cons_append]
    exact .stopped hcons ⟨m₁, hs, hdone⟩ hstop

/-- A program without a `return` outside of functions is executed from its first statement on. -/
theorem Settings.executeAll_ran (settings : Settings) {program : List (Stmt Hops)}
    (h : Stmt.anyReturns program = false) (m : Machine) :
    (∃ m', settings.runner.executeAll program m = (.ok .completed, m') ∧ settings.runner.Ran program m none m') ∨
      ∃ stop m', settings.runner.executeAll program m = (.error stop, m') ∧ stop.AtRuntime ∧
        settings.runner.Ran program m (some stop) m' := by
  induction program generalizing m with
  | nil => exact .inl ⟨m, rfl, .completed rfl⟩
  | cons s ss ih =>
    obtain ⟨hs, hss⟩ := Bool.or_eq_false_iff.mp h
    -- the first statement stops the program, or completes and leaves it to the others
    have hends := settings.execute_ends s m
    rw [Runner.executeAll, Eval.bind_apply]
    rcases hrun : settings.runner.execute s m with ⟨result, m₁⟩
    rw [hrun] at hends
    cases result with
    | error stop =>
      have hfirst : s :: ss = [] ++ s :: ss := rfl
      exact .inr ⟨stop, m₁, rfl, hends, .stopped hfirst rfl hrun⟩
    | ok c =>
      obtain rfl := hends hs
      rcases ih hss m₁ with ⟨m', hrest, hran⟩ | ⟨stop, m', hrest, hstop, hran⟩
      · exact .inl ⟨m', hrest, hran.cons hrun⟩
      · exact .inr ⟨stop, m', hrest, hstop, hran.cons hrun⟩

/-- Running a program is executing its statements. -/
theorem Machine.run_ran (settings : Settings) {program : List (Stmt Hops)}
    (h : Stmt.anyReturns program = false) (m : Machine) :
    settings.runner.Ran program m (m.run settings program).1 (m.run settings program).2 ∧
      ∀ stop ∈ (m.run settings program).1, stop.AtRuntime := by
  unfold Machine.run
  rcases settings.executeAll_ran h m with ⟨m', hrun, hran⟩ | ⟨stop, m', hrun, hstop, hran⟩
  · rw [hrun]
    exact ⟨hran, fun _ hnone => by cases hnone⟩
  · rw [hrun]
    refine ⟨hran, fun stop' hsome => ?_⟩
    cases hsome
    exact hstop

/-! ## Steps

A step ends behind the scanner and the parser, behind the resolver, or behind the run. For each of the three it is shown
what is left, whatever was there before. -/

/-- The diagnostics are those of the syntax, first of the scan and then of the parser, or of the resolver alone, or
one of the run. -/
inductive Log.Layered (log : Log) : Prop
  | syntactic {scanned parsed : List Diagnostic} (h : log.diagnostics = scanned ++ parsed)
      (hscanned : ∀ d ∈ scanned, d.stage = .scan) (hparsed : ∀ d ∈ parsed, d.stage = .parse)
  | resolution (h : ∀ d ∈ log.diagnostics, d.stage = .resolve)
  | run {d : Diagnostic} (h : log.diagnostics = [d]) (hd : d.stage = .runtime)

/-- How a run shows in what a step leaves: a mistake of the program is in the log, and any other stop is handed
back. -/
def Step.Shows (step : Step) : Option Stop → Prop
  | some (.error d) => step.session.log.diagnostics = [d] ∧ d.stage = .runtime ∧ step.stop? = none
  | stop? => step.session.log.diagnostics = [] ∧ step.stop? = stop?

/-- What a step that began with an empty log leaves of a session. -/
structure Step.Gated (settings : Settings) (stopAfter : Option ArtifactName) (source : String) (s : Session)
    (step : Step) : Prop where
  honest : step.session.log.Honest
  layered : step.session.log.Layered
  unresolved : step.session.log.Has [.scan, .parse] ∨ stopAfter = some .tokens ∨ stopAfter = some .ast →
    step.session.table = s.table ∧ step.session.machine = s.machine
  unexecuted : step.session.log.Has [.resolve] ∨ stopAfter = some .resolution →
    step.session.machine = s.machine ∧ s.table <+: step.session.table
  /-- With nothing to complain about, all stages have nothing to complain about. -/
  executed : ¬ step.session.log.Has [.scan, .parse, .resolve] → stopAfter = none →
    ∃ parsed stop?, parse (scan source).tokens = some parsed ∧
      (scan source).diagnostics = [] ∧ parsed.diagnostics = [] ∧ (resolve parsed.program).2.diagnostics = [] ∧
      step.session.table = s.table ++ (resolve parsed.program).2.entries ∧
      settings.runner.Ran (resolve parsed.program).1 s.machine stop? step.session.machine ∧ step.Shows stop?

namespace Session

variable {settings : Settings} {stopAfter : Option ArtifactName} {source : String} {s : Session}

/-- A step that ends before the resolver, because of the syntax or because it is told to. -/
theorem gated_of_syntax {step : Step} {ds : List Diagnostic} (hds : ∀ d ∈ ds, d.stage = .parse)
    (hsession : step.session
      = { s with log := (Log.empty.append (scan source).diagnostics).append ds })
    (hend : step.session.log.hadError = true ∨ stopAfter = some .tokens ∨ stopAfter = some .ast) :
    Step.Gated settings stopAfter source s step := by
  have hdiagnostics : step.session.log.diagnostics = (scan source).diagnostics ++ ds := by
    rw [hsession, Log.diagnostics_append, Log.diagnostics_append]
    rfl
  have hhonest : step.session.log.Honest := by
    rw [hsession]
    exact (Log.honest_empty.append _).append _
  constructor
  case honest => exact hhonest
  case layered => exact .syntactic hdiagnostics (scan_stage source) hds
  case unresolved =>
    intro _
    rw [hsession]
    exact ⟨rfl, rfl⟩
  case unexecuted =>
    intro _
    rw [hsession]
    exact ⟨rfl, List.prefix_rfl⟩
  case executed =>
    intro hclean hall
    -- the step has ended early, for an error or because it was told to
    rcases hend with herror | hstop | hstop
    · exact absurd (hhonest.hadError.mp herror) hclean
    · rw [hall] at hstop
      cases hstop
    · rw [hall] at hstop
      cases hstop

/-- A step that ends behind the resolver. -/
theorem gated_of_resolution {step : Step} {ds : List Diagnostic} {entries : List Entry}
    (hds : ∀ d ∈ ds, d.stage = .resolve)
    (hsession : step.session = { s with table := s.table ++ entries, log := Log.empty.append ds })
    (hbegun : stopAfter ≠ some .tokens ∧ stopAfter ≠ some .ast)
    (hend : step.session.log.hadError = true ∨ stopAfter = some .resolution) :
    Step.Gated settings stopAfter source s step := by
  have hdiagnostics : step.session.log.diagnostics = ds := by
    rw [hsession, Log.diagnostics_append]
    rfl
  have hhonest : step.session.log.Honest := by
    rw [hsession]
    exact Log.honest_empty.append _
  -- all diagnostics are of the resolver, so that each mark says what stage it was
  constructor
  case honest => exact hhonest
  case layered =>
    apply Log.Layered.resolution
    rw [hdiagnostics]
    exact hds
  case unresolved =>
    rintro (⟨d, hd, hstage⟩ | hstop | hstop)
    · rw [hds d (hdiagnostics ▸ hd)] at hstage
      simp at hstage
    · exact absurd hstop hbegun.1
    · exact absurd hstop hbegun.2
  case unexecuted =>
    intro _
    rw [hsession]
    exact ⟨rfl, List.prefix_append _ _⟩
  case executed =>
    intro hclean hall
    rcases hend with herror | hstop
    · exact absurd (hhonest.hadError.mp herror) hclean
    · rw [hall] at hstop
      cases hstop

/-- The execution of a program with an empty log, by the way its run ends. -/
theorem execute_eq (settings : Settings) (program : List (Stmt Hops)) (machine : Machine) (table : List Entry) :
    (∃ d, (machine.run settings program).1 = some (.error d) ∧
        execute settings program ⟨machine, table, .empty⟩
          = (none, ⟨(machine.run settings program).2, table, Log.empty.report d⟩)) ∨
      (∀ d, (machine.run settings program).1 ≠ some (.error d)) ∧
        execute settings program ⟨machine, table, .empty⟩
          = ((machine.run settings program).1, ⟨(machine.run settings program).2, table, .empty⟩) := by
  simp only [execute]
  rcases machine.run settings program with ⟨stop?, machine'⟩
  match stop? with
  | some (.error d) => exact .inl ⟨d, rfl, rfl⟩
  | none => exact .inr ⟨by simp, rfl⟩
  | some (.fault f) => exact .inr ⟨by simp, rfl⟩
  | some .tooDeep => exact .inr ⟨by simp, rfl⟩
  | some .tooLong => exact .inr ⟨by simp, rfl⟩

/-- A step that executes the program, whose log has nothing but what came of the run. -/
theorem gated_of_ran {step : Step} {program : List SourceStmt} {stop? : Option Stop}
    (hparse : parse (scan source).tokens = some ⟨program, []⟩) (hscanned : (scan source).diagnostics = [])
    (hclean : (resolve program).2.diagnostics = [])
    (htable : step.session.table = s.table ++ (resolve program).2.entries)
    (hran : settings.runner.Ran (resolve program).1 s.machine stop? step.session.machine)
    (hshows : step.Shows stop?) (hhonest : step.session.log.Honest) :
    Step.Gated settings none source s step := by
  -- the log has the mistake that stopped the run, if one did, and nothing else
  have hlog : step.session.log.Layered ∧ ∀ stages, step.session.log.Has stages → .runtime ∈ stages := by
    unfold Step.Shows at hshows
    split at hshows
    next d =>
      obtain ⟨hdiagnostics, hstage, -⟩ := hshows
      refine ⟨.run hdiagnostics hstage, ?_⟩
      rintro stages ⟨d', hd', hstages⟩
      rw [hdiagnostics] at hd'
      rwa [List.mem_singleton.mp hd', hstage] at hstages
    next =>
      have hnone : ∀ d, d ∉ step.session.log.diagnostics := by
        rw [hshows.1]
        exact fun _ => List.not_mem_nil
      exact ⟨.resolution fun d hd => absurd hd (hnone d), fun _ ⟨d, hd, _⟩ => absurd hd (hnone d)⟩
  obtain ⟨hlayered, hdynamic⟩ := hlog
  constructor
  case honest => exact hhonest
  case layered => exact hlayered
  case unresolved =>
    rintro (h | h | h)
    · exact absurd (hdynamic _ h) (by decide)
    · cases h
    · cases h
  case unexecuted =>
    rintro (h | h)
    · exact absurd (hdynamic _ h) (by decide)
    · cases h
  case executed => exact fun _ _ => ⟨⟨program, []⟩, stop?, hparse, hscanned, rfl, hclean, htable, hran, hshows⟩

/-- A step that runs its program, which scans, parses and resolves without complaints. -/
theorem gated_of_execution {step : Step} {program : List SourceStmt}
    (hparse : parse (scan source).tokens = some ⟨program, []⟩) (hscanned : (scan source).diagnostics = [])
    (hclean : (resolve program).2.diagnostics = [])
    (hexecute : (step.stop?, step.session) = execute settings (resolve program).1
      ⟨s.machine, s.table ++ (resolve program).2.entries, .empty⟩) :
    Step.Gated settings none source s step := by
  obtain ⟨hran, hruntime⟩ := Machine.run_ran settings (anyReturns_resolve hparse hclean) s.machine
  -- a mistake of the program is reported, and any other stop is handed on without a report
  rcases execute_eq settings (resolve program).1 s.machine (s.table ++ (resolve program).2.entries) with
    ⟨d, herror, heq⟩ | ⟨hother, heq⟩
  · obtain ⟨hstop, hsession⟩ := Prod.mk.inj (hexecute.trans heq)
    have hstage : d.stage = .runtime := by
      obtain ⟨cause, token, rfl⟩ := hruntime _ herror d rfl
      rfl
    have hshows : step.Shows (some (.error d)) := by
      refine ⟨?_, hstage, hstop⟩
      rw [hsession]
      exact Log.diagnostics_report _ _
    refine gated_of_ran hparse hscanned hclean ?_ ?_ hshows ?_
    · rw [hsession]
    · rw [hsession, ← herror]
      exact hran
    · rw [hsession]
      exact Log.honest_empty.report d
  · obtain ⟨hstop, hsession⟩ := Prod.mk.inj (hexecute.trans heq)
    have hshows : step.Shows (s.machine.run settings (resolve program).1).1 := by
      unfold Step.Shows
      split
      next d herror => exact absurd herror (hother d)
      next => exact ⟨by rw [hsession]; rfl, hstop⟩
    refine gated_of_ran hparse hscanned hclean ?_ ?_ hshows ?_
    · rw [hsession]
    · rw [hsession]
      exact hran
    · rw [hsession]
      exact Log.honest_empty

/-- A step on an empty log is gated by the errors that its stages find. -/
theorem step_gated (settings : Settings) (wantsTable : Bool) (stopAfter : Option ArtifactName) (source : String)
    (s : Session) :
    Step.Gated settings stopAfter source s (s.resetLog.step settings wantsTable stopAfter source) := by
  obtain ⟨program, ds, hparse, hformed⟩ := parse_scan source
  obtain ⟨hfault, -⟩ := resolve_complains hformed
  have hparsed : ∀ d ∈ ds, d.stage = .parse := parse_stage hparse
  have hresolved : ∀ d ∈ (resolve program).2.diagnostics, d.stage = .resolve := resolve_stage hparse
  unfold Session.step
  dsimp only
  split
  case isTrue htokens =>
    have hunparsed : ∀ d ∈ ([] : List Diagnostic), d.stage = .parse := List.forall_mem_nil _
    exact gated_of_syntax hunparsed rfl (.inr (.inl htokens))
  case isFalse htokens =>
  rw [hparse]
  dsimp only
  split
  case isTrue hend => exact gated_of_syntax hparsed rfl (hend.imp_right .inr)
  case isFalse hsyntax =>
  obtain ⟨herror, hast⟩ := not_or.mp hsyntax
  -- nothing is wrong with the syntax, so the log is still empty
  obtain rfl : ds = [] := Log.eq_nil_of_stage hparsed (by decide) herror
  have hscanned : (scan source).diagnostics = [] := by
    have hscan : ¬ (Log.empty.append (scan source).diagnostics).hadError = true := herror
    exact Log.eq_nil_of_stage (scan_stage source) (by decide) hscan
  have hlog : (s.resetLog.report (scan source).diagnostics).report [] = ⟨s.machine, s.table, .empty⟩ := by
    rw [hscanned]
    rfl
  rw [hlog, hfault]
  dsimp only
  split
  case isTrue hend => exact gated_of_resolution hresolved rfl ⟨htokens, hast⟩ hend
  case isFalse hresolution =>
  obtain ⟨herror, hstop⟩ := not_or.mp hresolution
  have hclean : (resolve program).2.diagnostics = [] := by
    have hresolve : ¬ (Log.empty.append (resolve program).2.diagnostics).hadError = true := herror
    exact Log.eq_nil_of_stage hresolved (by decide) hresolve
  have hall : stopAfter = none := by
    rcases stopAfter with - | - | - | -
    · rfl
    · exact absurd rfl htokens
    · exact absurd rfl hast
    · exact absurd rfl hstop
  subst hall
  rw [hclean]
  exact gated_of_execution hparse hscanned hclean rfl

end Session

/-! ## Scripts

A script is read from a file, run in a step, and its artifacts are written. The exit code is chosen from the log. -/

namespace Pipeline

variable (p : Pipeline)

/-- To write a file leaves the session alone. -/
theorem session_save (name : ArtifactName) (data : Json) : (p.save name data).2.session = p.session := by
  unfold save
  dsimp only
  split
  · rfl
  · split <;> rfl

/-- Writing several artifacts changes nothing but the list of those that are written. -/
theorem session_recordAll (artifacts : List (ArtifactName × Json)) :
    (p.recordAll artifacts).2.session = p.session := by
  induction artifacts generalizing p with
  | nil => rfl
  | cons artifact artifacts ih =>
    obtain ⟨name, data⟩ := artifact
    have hrecord : (p.record name data).2.session = p.session := by
      unfold record
      dsimp only
      split
      · exact session_save _ name data
      · rfl
    unfold recordAll
    split
    next p' h => rw [ih, ← hrecord, h]
    next e p' h => rw [← hrecord, h]

/-- Nothing is saved that is not to be dumped, and then nothing goes wrong. -/
theorem recordAll_ok (h : p.job.dump = []) (artifacts : List (ArtifactName × Json)) :
    (p.recordAll artifacts).1 = .ok () := by
  induction artifacts generalizing p with
  | nil => rfl
  | cons artifact artifacts ih =>
    obtain ⟨name, data⟩ := artifact
    have hrecord : p.record name data = (.ok (), { p with recorded := p.recorded ++ [name] }) := by
      unfold record
      dsimp only
      rw [h]
      exact if_neg List.not_mem_nil
    rw [recordAll, hrecord]
    exact ih _ h

/-- A job that is to stop after the one artifact that it dumps does so. -/
theorem lastArtifact?_start {job : Job} (h : job.dump = job.stopAfter.toList) (session : Session)
    (files : FileTree) : (start job session files).lastArtifact? = job.stopAfter := by
  -- an artifact that is not dumped cannot end the job
  have hbreaks : ∀ name, name ∉ job.stopAfter.toList → (start job session files).breaksAt name = false := by
    intro name hname
    rw [breaksAt]
    show (decide (name ∈ job.dump) && _) = false
    rw [h, decide_eq_false hname, Bool.false_and]
  unfold lastArtifact? ArtifactName.all
  show List.find? (fun name => job.stopAfter = some name || _) _ = _
  cases hstop : job.stopAfter with
  | none =>
    apply List.find?_eq_none.mpr
    intro name _
    rw [hbreaks name (by rw [hstop]; exact List.not_mem_nil)]
    simp
  -- the artifact to stop after is the only one that is dumped
  | some artifact =>
    have hother : ∀ name, name ≠ artifact → (start job session files).breaksAt name = false := by
      intro name hname
      apply hbreaks
      rw [hstop]
      simpa using hname
    cases artifact with
    | tokens => rfl
    | ast =>
      rw [List.find?_cons_of_neg (by rw [hother .tokens (by decide)]; decide)]
      rfl
    | resolution =>
      rw [List.find?_cons_of_neg (by rw [hother .tokens (by decide)]; decide),
        List.find?_cons_of_neg (by rw [hother .ast (by decide)]; decide)]
      rfl

/-- What is left when a job has run once that is to stop after the one artifact that it dumps. -/
theorem run_start (settings : Settings) {job : Job} (h : job.dump = job.stopAfter.toList) (session : Session)
    (files : FileTree) :
    let step := session.step settings (.resolution ∈ job.dump) job.stopAfter job.source
    ((start job session files).run settings).2.session = step.session ∧
      match ((start job session files).run settings).1 with
      | none => step.stop? = none
      | some (.stop stop) => step.stop? = some stop
      | some (.unsaved _) => job.stopAfter.isSome := by
  have hlast : (⟨job, session, files, [], [], []⟩ : Pipeline).lastArtifact? = job.stopAfter :=
    lastArtifact?_start h session files
  unfold Pipeline.run
  dsimp only [start]
  rw [hlast]
  generalize session.step settings (.resolution ∈ job.dump) job.stopAfter job.source = step
  have hsession := session_recordAll ⟨job, step.session, files, [], step.program?.getD [], []⟩ (artifactsOf step)
  -- a job without an artifact dumps nothing, so that nothing can fail to be saved
  have hok : job.stopAfter = none →
      (recordAll (artifactsOf step) ⟨job, step.session, files, [], step.program?.getD [], []⟩).1 = .ok () := by
    intro hnone
    apply recordAll_ok
    show job.dump = []
    rw [h, hnone]
    rfl
  revert hsession hok
  rcases recordAll (artifactsOf step) ⟨job, step.session, files, [], step.program?.getD [], []⟩ with ⟨result, p⟩
  intro hsession hok
  cases result with
  | ok u =>
    refine ⟨hsession, ?_⟩
    cases hstop : step.stop? with
    | none => rfl
    | some stop => rfl
  | error e =>
    refine ⟨hsession, ?_⟩
    cases hstop : job.stopAfter with
    | none => exact absurd (hok hstop) (by simp)
    | some artifact => rfl

end Pipeline

namespace CommandLine

/-- The text of a script, if it can be read. -/
def textOf? (script : String) (files : FileTree) : Option String :=
  match files.read (Location.ofPath files.directory script) with
  | .ok content => decodeText? content
  | .error _ => none

/-- The one step of a script. -/
def scriptStep (settings : Settings) (arguments : Arguments) (source : String) : Step :=
  let artifact? := arguments.compile?.map (·.2.1)
  Session.initial.step settings (.resolution ∈ artifact?.toList) artifact? source

/-- The exit code of a script tells the sort of error in the log of its step. -/
structure Ending.Reflects (ending : Ending) (step : Step) : Prop where
  finished : step.stop? = none
  rejected : ending.exit = 65 ↔ step.session.log.Has [.scan, .parse, .resolve]
  failed : ending.exit = 70 ↔ step.session.log.Has [.runtime]
  codes : ending.exit = 65 ∨ ending.exit = 70 ∨ ending.exit = 0
  /-- Nothing of a script that was rejected has run. -/
  unexecuted : ending.exit = 65 → step.session.machine = .initial
  written : ∃ notices tree success,
    ending.written = notices ++ printedSince 0 step.session.machine ++ tree ++ reportLog step.session.log ++ success

/-- How a script may end. A script that cannot be read is refused, and one that broke off was stopped or could not
save what it was to dump. -/
def Gated (settings : Settings) (arguments : Arguments) (script : String) (files : FileTree) :
    Except Abort Ending → Prop
  | .ok ending =>
    match textOf? script files with
    | some source => ending.Reflects (scriptStep settings arguments source)
    | none => ∃ complaint, ending = refuse 65 complaint files ∨ ending = refuse 66 complaint files
  | .error (.run (.stop stop)) =>
    ∃ source, textOf? script files = some source ∧ (scriptStep settings arguments source).stop? = some stop
  | .error (.run (.unsaved _)) => arguments.compile?.isSome
  | .error (.path _) => textOf? script files = none

/-- The exit code in terms of the diagnostics. -/
theorem exitCode_of_log {log : Log} (hhonest : log.Honest) (hlayered : log.Layered) :
    (exitCode log = 65 ↔ log.Has [.scan, .parse, .resolve]) ∧ (exitCode log = 70 ↔ log.Has [.runtime]) ∧
      (exitCode log = 65 ∨ exitCode log = 70 ∨ exitCode log = 0) := by
  -- a rejected program has not run, so the two marks are never set together
  have hruntime : log.hadRuntimeError = true ↔ log.Has [.runtime] := by
    rw [hhonest.hadRuntimeError]
    simp only [Log.Has, List.mem_singleton]
  have hapart : log.Has [.runtime] → ¬ log.Has [.scan, .parse, .resolve] := by
    rintro ⟨d, hd, hstage⟩ ⟨d', hd', hstage'⟩
    rw [List.mem_singleton] at hstage
    cases hlayered with
    | syntactic h hscanned hparsed =>
      rw [h] at hd
      rcases List.mem_append.mp hd with hd | hd
      · cases hstage.symm.trans (hscanned d hd)
      · cases hstage.symm.trans (hparsed d hd)
    | resolution h => cases hstage.symm.trans (h d hd)
    | run h hrun =>
      rw [h] at hd'
      rw [List.mem_singleton.mp hd', hrun] at hstage'
      exact absurd hstage' (by decide)
  have hstatic : log.hadError = true ↔ log.Has [.scan, .parse, .resolve] := hhonest.hadError
  rw [← hruntime, ← hstatic] at hapart
  unfold exitCode exitRejected exitFailed
  rw [← hruntime, ← hstatic]
  cases hadError : log.hadError with
  | false => cases log.hadRuntimeError <;> simp
  | true =>
    have hnot : log.hadRuntimeError = false := Bool.eq_false_iff.mpr fun h => hapart h hadError
    rw [hnot]
    simp

/-- The run of a script whose text is known. -/
theorem runText_gated (settings : Settings) (arguments : Arguments) (file : Location) (source : String)
    (files : FileTree) :
    match runText settings arguments file source files with
    | .ok ending => ending.Reflects (scriptStep settings arguments source)
    | .error (.stop stop) => (scriptStep settings arguments source).stop? = some stop
    | .error (.unsaved _) => arguments.compile?.isSome := by
  let artifact? := arguments.compile?.map (·.2.1)
  let job : Job := { source, file? := some file, dump := artifact?.toList, stopAfter := artifact? }
  let step := scriptStep settings arguments source
  have hgated : Step.Gated settings artifact? source .initial step :=
    Session.step_gated settings (.resolution ∈ artifact?.toList) artifact? source .initial
  obtain ⟨hrejected, hfailed, hcodes⟩ := exitCode_of_log hgated.honest hgated.layered
  have hunexecuted : step.session.log.Has [.scan, .parse, .resolve] → step.session.machine = .initial := by
    rintro ⟨d, hd, hstage⟩
    simp only [List.mem_cons, List.not_mem_nil, or_false] at hstage
    rcases hstage with hstage | hstage | hstage
    · exact (hgated.unresolved (.inl ⟨d, hd, by simp [hstage]⟩)).2
    · exact (hgated.unresolved (.inl ⟨d, hd, by simp [hstage]⟩)).2
    · exact (hgated.unexecuted (.inl ⟨d, hd, by simp [hstage]⟩)).1
  have hdump : job.dump = job.stopAfter.toList := rfl
  -- the pipeline ends with the session of the step, whatever is written on the way
  obtain ⟨hsession, hbroken⟩ := Pipeline.run_start settings hdump .initial files
  replace hsession : ((Pipeline.start job .initial files).run settings).2.session = step.session := hsession
  unfold runText
  dsimp only
  rcases hrun : (Pipeline.start job .initial files).run settings with ⟨broken?, p⟩
  rw [hrun] at hsession hbroken
  match broken? with
  | none =>
    constructor
    case finished => exact hbroken
    case rejected => exact hsession ▸ hrejected
    case failed => exact hsession ▸ hfailed
    case codes => exact hsession ▸ hcodes
    case unexecuted =>
      intro hexit
      exact hunexecuted (hrejected.mp (hsession ▸ hexit))
    case written =>
      rw [← hsession]
      exact ⟨_, _, _, rfl⟩
  | some (.stop stop) => exact hbroken
  | some (.unsaved e) =>
    have hsome : artifact?.isSome = true := hbroken
    rwa [Option.isSome_map] at hsome

/-- The run of a script, which is refused if it has no text. -/
theorem runScript_gated (settings : Settings) (arguments : Arguments) (script : String) (files : FileTree) :
    Gated settings arguments script files (runScript settings arguments script files) := by
  have htext : textOf? script files = match files.read (Location.ofPath files.directory script) with
    | .ok content => decodeText? content
    | .error _ => none := rfl
  unfold runScript
  dsimp only
  cases hread : files.read (Location.ofPath files.directory script) with
  | error e =>
    rw [hread] at htext
    have hrefused : ∀ complaint, Gated settings arguments script files (.ok (refuse 66 complaint files)) := by
      intro complaint
      rw [Gated, htext]
      exact ⟨complaint, .inr rfl⟩
    -- a path with a null character stops the run; any other file that cannot be read is refused
    cases e with
    | nullCharacter => exact htext
    | _ => exact hrefused _
  | ok content =>
    rw [hread] at htext
    dsimp only at htext ⊢
    cases hdecode : decodeText? content with
    | none =>
      rw [hdecode] at htext
      show Gated settings arguments script files (.ok (refuse 65 _ files))
      rw [Gated, htext]
      exact ⟨_, .inl rfl⟩
    | some source =>
      rw [hdecode] at htext
      have hrun := runText_gated settings arguments (Location.ofPath files.directory script) source files
      dsimp only
      rcases hresult : runText settings arguments (Location.ofPath files.directory script) source files with
        b | ending <;> rw [hresult] at hrun
      · cases b with
        | stop stop => exact ⟨source, htext, hrun⟩
        | unsaved e => exact hrun
      · show Gated settings arguments script files (.ok ending)
        rw [Gated, htext]
        exact hrun

end CommandLine

/-- **Errors are gates.** The marks of a log say what its diagnostics are, after any reports and resets, and a report
under a name of no stage changes nothing. What a step with an empty log leaves of a session tells how far it came:
errors of one layer keep the later stages from the table and from the machine, and without them all statements up to
the first mistake are executed. The exit code of a script tells the layer. -/
theorem errors_gate (settings : Settings) :
    (∀ actions : List Log.Action, (actions.foldl Log.handle .empty).Honest) ∧
      (∀ (log : Log) (stage : String) (cause : Cause) (token? : Option Token) (line? : Option Int),
        Stage.ofName? stage = none → log.handle (.report stage cause token? line?) = log) ∧
      (∀ (s : Session) (source : String) (wantsTable : Bool) (stopAfter : Option ArtifactName),
        Step.Gated settings stopAfter source s (s.resetLog.step settings wantsTable stopAfter source)) ∧
      ∀ (arguments : CommandLine.Arguments) (script : String) (files : FileTree),
        CommandLine.Gated settings arguments script files
          (CommandLine.runScript settings arguments script files) := by
  refine ⟨Log.honest_after, ?_, ?_, ?_⟩
  · exact fun log stage cause token? line? h => log.handle_unknown h cause token? line?
  · exact fun s source wantsTable stopAfter => s.step_gated settings wantsTable stopAfter source
  · exact CommandLine.runScript_gated settings

end LoxLang
