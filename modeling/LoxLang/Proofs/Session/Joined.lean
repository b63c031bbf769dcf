import LoxLang.Proofs.Lines.Evaluator
import LoxLang.Proofs.Lines.Resolver
import LoxLang.Proofs.Lines.Seam
import LoxLang.Proofs.Run.Sessions
import LoxLang.Proofs.Session.Gating

/-!
# A file and a session

Two texts run one after the other in a session, or joined by a newline as one file. If the first one comes to its end,
both ways print the same and leave the same.

The joined text is a program of the first text's statements and the second's on lower lines. Two moves of the lines
compare the runs:

* `Lines.lifted` takes the second text back to its own lines and leaves the first one alone, so that it moves the run of
  the file to the run of the session.
* `Lines.astray` leaves only the tokens of the file alone. The file's run does not change under it, so that a mistake is
  at one of these tokens.
-/

namespace LoxLang

/-! ## Accepted texts

A text is accepted if it is scanned and parsed without complaints. With the grammar this says that its tokens derive its
program. -/

/-- The text is a program about which no stage before the run complains. -/
structure Reads (source : String) (program : List SourceStmt) : Prop where
  scanned : (scan source).diagnostics = []
  parsed : parse (scan source).tokens = some ⟨program, []⟩
  resolved : (resolve program).2.diagnostics = []

/-- The tokens of an accepted text derive its program. -/
theorem Reads.program {source : String} {program : List SourceStmt} (h : Reads source program) :
    Program .standard program (lexed source) := by
  have hparsed := h.parsed
  rw [scan_tokens] at hparsed
  obtain ⟨ss, ds, hparse, -, hderived⟩ :=
    parse_answers (fun _ => kind_of_mem_lexed) (rfl : (Token.eof (1 + newlines source : Nat)).kind = .eof)
  cases hparse.symm.trans hparsed
  exact hderived .standard Dialect.excuses_nil

/-! ### Programs of tokens

A program is known from its tokens. So trees can be compared by comparing tokens, which is easy to do after a move of
the lines. -/

section

variable {ss ss' : List SourceStmt} {w : List Token} {L : Lines}

/-- Tokens are derived from one program at most. -/
theorem Program.unique (h : Program .standard ss w) (h' : Program .standard ss' w) : ss = ss' := by
  have heof : (Token.eof 0).kind = .eof := rfl
  cases (parse_of_program heof h).symm.trans (parse_of_program heof h')
  rfl

theorem Program.formed (h : Program .standard ss w) (hw : ∀ t ∈ w, t.kind ≠ .eof) :
    Stmt.AllFormed (fun _ => True) ss := by
  have heof : (Token.eof 0).kind = .eof := rfl
  obtain ⟨ss', ds, hparse, hformed, -⟩ := parse_answers hw heof
  cases hparse.symm.trans (parse_of_program heof h)
  exact hformed _ fun _ _ => trivial

/-- A program that stands on its tokens' lines already stays. -/
theorem Program.moved_eq (h : Program .standard ss w) (hw : w.map (·.moved L) = w) : Stmt.movedAll L ss = ss := by
  have hmoved := h.moved (L := L)
  rw [hw] at hmoved
  exact hmoved.unique h

/-- The resolved program moves as the program does. -/
theorem moved_resolved (hformed : Stmt.AllFormed (fun _ => True) ss) (h : Stmt.movedAll L ss = ss') :
    Stmt.movedAll L (resolve ss).1 = (resolve ss').1 := by
  rw [← h, (resolve_moved hformed).1]

end

/-! ### Joining

The tokens of a file are those of the first text and those of the second, further down; and so are its statements. -/

section

variable {A B : String} {P Q : List SourceStmt}

/-- The lines of the second text in the joined one. -/
abbrev Lines.behind (A : String) : Lines :=
  Lines.down (newlines A + 1)

theorem Reads.program_behind (hB : Reads B Q) (A : String) :
    Program .standard (Stmt.movedAll (Lines.behind A) Q) ((lexed B).map (·.moved (Lines.behind A))) :=
  hB.program.moved

theorem Reads.formed (hA : Reads A P) : Stmt.AllFormed (fun _ => True) P :=
  hA.program.formed fun _ => kind_of_mem_lexed

theorem Reads.formed_behind (hB : Reads B Q) (A : String) :
    Stmt.AllFormed (fun _ => True) (Stmt.movedAll (Lines.behind A) Q) := by
  apply (hB.program_behind A).formed
  intro t ht
  obtain ⟨u, hu, rfl⟩ := List.mem_map.mp ht
  show u.kind ≠ .eof
  exact kind_of_mem_lexed hu

/-- What the resolver makes of the joined programs. -/
theorem Reads.resolve_join (hA : Reads A P) (hB : Reads B Q) :
    (resolve (P ++ Stmt.movedAll (Lines.behind A) Q)).1
        = (resolve P).1 ++ Stmt.movedAll (Lines.behind A) (resolve Q).1 ∧
      (resolve (P ++ Stmt.movedAll (Lines.behind A) Q)).2.entries.length
        = (resolve P).2.entries.length + (resolve Q).2.entries.length ∧
      (resolve (P ++ Stmt.movedAll (Lines.behind A) Q)).2.diagnostics = [] := by
  obtain ⟨hresult, hentries, hdiagnostics⟩ := resolve_append hA.formed (hB.formed_behind A)
  obtain ⟨hmoved, hmoves, hnone⟩ := resolve_moved (L := Lines.behind A) hB.formed
  have hclean : (resolve (Stmt.movedAll (Lines.behind A) Q)).2.diagnostics = [] := by
    rw [hnone, hB.resolved]
    rfl
  refine ⟨?_, ?_, ?_⟩
  · rw [hresult, hmoved]
  · rw [hentries, List.length_append, hmoves.length_eq]
  · rw [hdiagnostics, hA.resolved, hclean, List.append_nil]

/-- Accepted texts are accepted when they are joined. -/
theorem Reads.join (hA : Reads A P) (hB : Reads B Q) :
    Reads (A ++ "\n" ++ B) (P ++ Stmt.movedAll (Lines.behind A) Q) where
  scanned := scan_join hA.scanned hB.scanned
  parsed := by
    rw [scan_tokens, lexed_join (closed_of_clean hA.scanned)]
    exact parse_of_program rfl (hA.program.append (hB.program_behind A))
  resolved := (hA.resolve_join hB).2.2

end

/-! ## Runs

A run of two programs in succession is a run of the first one, and of the second on the machine that is left. -/

/-- Statements that run to their end before others. -/
theorem Runner.executeAll_append (run : Runner) {ss : List (Stmt Hops)} {m m' : Machine}
    (h : run.executeAll ss m = (.ok .completed, m')) (ss' : List (Stmt Hops)) :
    run.executeAll (ss ++ ss') m = run.executeAll ss' m' := by
  induction ss generalizing m with
  | nil =>
    cases h
    rfl
  | cons s ss ih =>
    rw [executeAll, Eval.bind_apply] at h
    rw [List.cons_append, executeAll, Eval.bind_apply]
    rcases hs : run.execute s m with ⟨result, m₁⟩
    rw [hs] at h
    rcases result with stop | completion
    · cases h
    · cases completion with
      | returning v => cases h
      | completed => exact ih h

/-- A program behind one that comes to its end. -/
theorem Machine.run_append {settings : Settings} {program : List (Stmt Hops)} {m m' : Machine}
    (hreturns : Stmt.anyReturns program = false) (h : m.run settings program = (none, m'))
    (program' : List (Stmt Hops)) : m.run settings (program ++ program') = m'.run settings program' := by
  rcases settings.executeAll_ran hreturns m with ⟨m₁, hrun, -⟩ | ⟨stop, m₁, hrun, -⟩
  · have hend : m.run settings program = (none, m₁) := by rw [run, hrun]
    cases hend.symm.trans h
    rw [run, run, Runner.executeAll_append _ hrun]
  · have hend : m.run settings program = (some stop, m₁) := by rw [run, hrun]
    cases hend.symm.trans h

/-- The step of an accepted text is the execution of its program. -/
theorem Reads.step {source : String} {program : List SourceStmt} (h : Reads source program) (settings : Settings)
    (wantsTable : Bool) {s : Session} (hlog : s.log = .empty) :
    let executed := Session.execute settings (resolve program).1
      ⟨s.machine, s.table ++ (resolve program).2.entries, .empty⟩
    (s.step settings wantsTable none source).stop? = executed.1 ∧
      (s.step settings wantsTable none source).session = executed.2 := by
  intro executed
  obtain ⟨hfault, -⟩ := resolve_complains h.formed
  have hreported : (s.report (scan source).diagnostics).report [] = ⟨s.machine, s.table, .empty⟩ := by
    rw [h.scanned, ← hlog]
    rfl
  have hallowed : ¬ (Log.empty.hadError = true ∨ none = some ArtifactName.ast) := by decide
  unfold Session.step
  dsimp only
  rw [if_neg (by decide), h.parsed]
  dsimp only
  rw [hreported, if_neg hallowed, hfault]
  dsimp only
  -- no test on the way ends the step, since nothing was reported
  split
  case isTrue hend =>
    have hon : ¬ (Log.empty.hadError = true ∨ none = some ArtifactName.resolution) := by decide
    rw [h.resolved] at hend
    exact absurd hend hon
  case isFalse =>
    show (Session.execute _ _ ⟨_, _, Log.empty.append _⟩).1 = _ ∧ (Session.execute _ _ ⟨_, _, Log.empty.append _⟩).2 = _
    rw [h.resolved]
    exact ⟨rfl, rfl⟩

/-! ### Comparing the runs

Moving the lines of the file gives the programs of the session, and a move is carried along by runs. Only a mistake
shows its line, and for that it has to be known which token it is about. -/

/-- The lines of the joined text taken back to those of its parts. -/
def Lines.lifted (A : String) : Lines :=
  fun t => if t.line ≤ newlines A + 1 then t.line else t.line - (newlines A + 1)

open Classical in
/-- Lines on which nothing but the given tokens stays where it is. -/
noncomputable def Lines.astray (w : List Token) : Lines :=
  fun t => if t ∈ w then t.line else t.line + 1

/-- A token stays if it is among those of the list, and otherwise its line becomes one that no token of the list has. -/
theorem Token.moved_astray {w : List Token} {t : Token} : t.moved (Lines.astray w) = t ↔ t ∈ w := by
  constructor
  · intro h
    by_contra hnot
    have hline : t.line + 1 = t.line := by
      conv_rhs => rw [← h]
      exact (if_neg hnot).symm
    omega
  · intro h
    have hline : Lines.astray w t = t.line := if_pos h
    rw [Token.moved, hline]

/-- A mistake that a program makes on a new machine is at one of its tokens: where these stay, the run stays. -/
theorem Reads.mistake_mem {source : String} {program : List SourceStmt} (h : Reads source program)
    {settings : Settings} {cause : Cause} {t : Token}
    (hrun : (Machine.initial.run settings (resolve program).1).1 = some (.error (.ofToken .runtime cause t))) :
    t ∈ lexed source := by
  have hstay : (lexed source).map (·.moved (Lines.astray (lexed source))) = lexed source := by
    conv_rhs => rw [← List.map_id (lexed source)]
    exact List.map_congr_left fun u hu => Token.moved_astray.mpr hu
  have hmoved := moved_resolved h.formed (h.program.moved_eq hstay)
  have hrun' := Machine.run_moved (L := Lines.astray (lexed source)) settings (resolve program).1 .initial
  rw [hmoved, Machine.moved_initial, Prod.ext_iff, hrun] at hrun'
  have htoken : t = t.moved (Lines.astray (lexed source)) := by
    have hstop := hrun'.1
    simpa [Stop.moved, Diagnostic.moved, Diagnostic.ofToken] using hstop
  exact Token.moved_astray.mp htoken.symm

section

variable {A B : String} {P Q : List SourceStmt}

/-- Tokens of the first text stay. -/
theorem Token.moved_lifted {t : Token} (h : t ∈ lexed A) : t.moved (Lines.lifted A) = t := by
  have hline : Lines.lifted A t = t.line := if_pos (line_of_mem_lexed h).2
  rw [Token.moved, hline]

/-- Tokens of the second text come back to their own lines. -/
theorem Token.moved_behind_lifted {t : Token} (h : t ∈ lexed B) :
    (t.moved (Lines.behind A)).moved (Lines.lifted A) = t := by
  have hline : Lines.lifted A (t.moved (Lines.behind A)) = t.line := by
    have hfirst := (line_of_mem_lexed h).1
    show (if t.line + ((newlines A + 1 : Nat) : Int) ≤ newlines A + 1 then _
      else t.line + ((newlines A + 1 : Nat) : Int) - (newlines A + 1)) = t.line
    rw [if_neg (by omega)]
    omega
  show { t with line := _ } = t
  rw [hline]

/-- Behind the run of the first text, the second one runs on its own lines as it does on those of the joined text. -/
theorem Reads.run_lifted (hA : Reads A P) (hB : Reads B Q) {settings : Settings} {m : Machine}
    (hrun : Machine.initial.run settings (resolve P).1 = (none, m)) :
    m.run settings (resolve Q).1
      = ((m.run settings (Stmt.movedAll (Lines.behind A) (resolve Q).1)).1.map (·.moved (Lines.lifted A)),
        (m.run settings (Stmt.movedAll (Lines.behind A) (resolve Q).1)).2.moved (Lines.lifted A)) := by
  -- the first text stays, and so does all code that its run leaves
  have hstayA : (lexed A).map (·.moved (Lines.lifted A)) = lexed A := by
    conv_rhs => rw [← List.map_id (lexed A)]
    exact List.map_congr_left fun u hu => Token.moved_lifted hu
  have hm : m.moved (Lines.lifted A) = m := by
    have hmoved := Machine.run_moved (L := Lines.lifted A) settings (resolve P).1 .initial
    rw [moved_resolved hA.formed (hA.program.moved_eq hstayA), Machine.moved_initial, hrun] at hmoved
    exact (Prod.mk.inj hmoved).2.symm
  -- the second text comes back to its lines
  have hstayB : ((lexed B).map (·.moved (Lines.behind A))).map (·.moved (Lines.lifted A)) = lexed B := by
    rw [List.map_map]
    conv_rhs => rw [← List.map_id (lexed B)]
    exact List.map_congr_left fun u hu => Token.moved_behind_lifted hu
  have hback : Stmt.movedAll (Lines.lifted A) (Stmt.movedAll (Lines.behind A) Q) = Q := by
    have hmoved := (hB.program_behind A).moved (L := Lines.lifted A)
    rw [hstayB] at hmoved
    exact hmoved.unique hB.program
  have hQ : Stmt.movedAll (Lines.lifted A) (Stmt.movedAll (Lines.behind A) (resolve Q).1) = (resolve Q).1 := by
    rw [← (resolve_moved hB.formed).1]
    exact moved_resolved (hB.formed_behind A) hback
  conv_lhs => rw [← hm, ← hQ]
  exact Machine.run_moved settings _ m

end

/-! ## Agreement

What the two ways may be compared by: outputs, globals, values, and the one diagnostic that a run may end with. -/

/-- The mistake that stops a file, and the one that stops the second of its parts in a session. Both are at one token:
`u` stands in the file, whose first `newlines A + 1` lines are those of the first part, and its line says which part the
token is in and what its line is there. -/
inductive SameMistakes (A B : String) : List Diagnostic → List Diagnostic → Prop
  | none : SameMistakes A B [] []
  /-- It is in the code of the first part, and its line is the same. -/
  | first {cause : Cause} {u : Token} (hu : u ∈ (scan (A ++ "\n" ++ B)).tokens) (hline : u.line ≤ newlines A + 1)
      (hfirst : u ∈ (scan A).tokens) :
    SameMistakes A B [.ofToken .runtime cause u] [.ofToken .runtime cause u]
  /-- It is in the second part, whose lines come after those of the first. -/
  | second {cause : Cause} {u : Token} (hu : u ∈ (scan (A ++ "\n" ++ B)).tokens) (hline : newlines A + 1 < u.line)
      (hsecond : { u with line := u.line - (newlines A + 1) } ∈ (scan B).tokens) :
    SameMistakes A B [.ofToken .runtime cause u]
      [.ofToken .runtime cause { u with line := u.line - (newlines A + 1) }]

/-- What a file of two parts leaves, and what the second part leaves in a session behind the first. -/
structure Step.Agrees (A B : String) (whole second : Step) : Prop where
  accepted : ¬ whole.session.log.Has [.scan, .parse, .resolve]
  printed : whole.session.machine.printed = second.session.machine.printed
  globals : whole.session.machine.globals.mapValues Value.text
    = second.session.machine.globals.mapValues Value.text
  table : whole.session.table.length = second.session.table.length
  stop : whole.stop? = second.stop?
  mistakes : SameMistakes A B whole.session.log.diagnostics second.session.log.diagnostics

/-- Only mistakes of the running program are compared. -/
theorem SameMistakes.stage {A B : String} {ds ds' : List Diagnostic} (h : SameMistakes A B ds ds') :
    ∀ d ∈ ds, d.stage = .runtime := by
  cases h with
  | none => exact List.forall_mem_nil _
  | first | second =>
    intro d hd
    rw [List.mem_singleton.mp hd]
    rfl

/-- A token of the joined text stands in one of its parts. -/
theorem sameMistakes_of_mem {A B : String} {P : List SourceStmt} (hA : Reads A P) {cause : Cause} {u : Token}
    (hu : u ∈ lexed (A ++ "\n" ++ B)) :
    SameMistakes A B [.ofToken .runtime cause u] [.ofToken .runtime cause (u.moved (Lines.lifted A))] := by
  have hjoined : u ∈ (scan (A ++ "\n" ++ B)).tokens := by
    rw [scan_tokens]
    exact List.mem_append_left _ hu
  rw [lexed_join (closed_of_clean hA.scanned)] at hu
  rcases List.mem_append.mp hu with hfirst | hsecond
  · -- the tokens of the first text are not lifted
    rw [Token.moved_lifted hfirst]
    refine .first hjoined (line_of_mem_lexed hfirst).2 ?_
    rw [scan_tokens]
    exact List.mem_append_left _ hfirst
  · obtain ⟨t, ht, rfl⟩ := List.mem_map.mp hsecond
    have hline : newlines A + 1 < (t.moved (Lines.behind A)).line := by
      have hfirst := (line_of_mem_lexed ht).1
      show (newlines A : Int) + 1 < t.line + ((newlines A + 1 : Nat) : Int)
      omega
    have hlifted : (t.moved (Lines.behind A)).moved (Lines.lifted A)
        = { t.moved (Lines.behind A) with line := (t.moved (Lines.behind A)).line - (newlines A + 1) } := by
      rw [Token.moved, Lines.lifted, if_neg (by omega)]
    have ht' : (t.moved (Lines.behind A)).moved (Lines.lifted A) ∈ (scan B).tokens := by
      rw [Token.moved_behind_lifted ht, scan_tokens]
      exact List.mem_append_left _ ht
    rw [hlifted] at ht' ⊢
    exact .second hjoined hline ht'

/-- The file runs the second text where the session has come to. -/
theorem Reads.run_join {A B : String} {P Q : List SourceStmt} (hA : Reads A P) (hB : Reads B Q) {settings : Settings}
    {m : Machine} (hrun : Machine.initial.run settings (resolve P).1 = (none, m)) :
    Machine.initial.run settings (resolve (P ++ Stmt.movedAll (Lines.behind A) Q)).1
      = m.run settings (Stmt.movedAll (Lines.behind A) (resolve Q).1) := by
  rw [(hA.resolve_join hB).1]
  exact Machine.run_append (anyReturns_resolve hA.parsed hA.resolved) hrun _

/-- A mistake that stops the file is at a token of one of the texts. -/
theorem Reads.mistake_join {A B : String} {P Q : List SourceStmt} (hA : Reads A P) (hB : Reads B Q)
    {settings : Settings} {d : Diagnostic}
    (hd : (Machine.initial.run settings (resolve (P ++ Stmt.movedAll (Lines.behind A) Q)).1).1 = some (.error d)) :
    SameMistakes A B [d] [d.moved (Lines.lifted A)] := by
  have hjoin := hA.join hB
  have hruntime := (Machine.run_ran settings (anyReturns_resolve hjoin.parsed hjoin.resolved) .initial).2
  obtain ⟨cause, u, rfl⟩ := hruntime _ hd d rfl
  exact sameMistakes_of_mem hA (hjoin.mistake_mem hd)

namespace Session

variable {settings : Settings} {wantsTable : Bool} {A B : String} {P Q : List SourceStmt}

/-- What an execution leaves but for the log. -/
theorem execute_leaves (settings : Settings) (program : List (Stmt Hops)) (machine : Machine) (table : List Entry) :
    (execute settings program ⟨machine, table, .empty⟩).2.machine = (machine.run settings program).2 ∧
      (execute settings program ⟨machine, table, .empty⟩).2.table = table :=
  ⟨machine_execute settings program _, table_execute settings program _⟩

/-- A first text that ends without a mistake has run to its end and leaves an empty log. -/
theorem first_ends (hA : Reads A P) (hend : (initial.step settings wantsTable none A).stop? = none)
    (hclean : (initial.step settings wantsTable none A).session.log.diagnostics = []) :
    ∃ m, Machine.initial.run settings (resolve P).1 = (none, m) ∧
      (initial.step settings wantsTable none A).session = ⟨m, (resolve P).2.entries, .empty⟩ := by
  obtain ⟨hstop, hsession⟩ := hA.step settings wantsTable (rfl : initial.log = .empty)
  rcases execute_eq settings (resolve P).1 initial.machine (initial.table ++ (resolve P).2.entries) with
    ⟨d, -, heq⟩ | ⟨-, heq⟩
  · rw [hsession, heq, Log.diagnostics_report] at hclean
    cases hclean
  · rw [heq] at hstop hsession
    exact ⟨_, Prod.ext (hstop.symm.trans hend) rfl, hsession⟩

/-- Two executions on empty logs, of which the second one runs as the first one does on other lines, hand back the
same stop and report the same mistake. -/
theorem execute_twins (table table' : List Entry) {program program' : List (Stmt Hops)} {m m' : Machine} {L : Lines}
    (hrun : m'.run settings program' = ((m.run settings program).1.map (·.moved L), (m.run settings program).2.moved L))
    {same : List Diagnostic → List Diagnostic → Prop} (hnone : same [] [])
    (hsome : ∀ d, (m.run settings program).1 = some (.error d) → same [d] [d.moved L]) :
    (execute settings program ⟨m, table, .empty⟩).1 = (execute settings program' ⟨m', table', .empty⟩).1 ∧
      same (execute settings program ⟨m, table, .empty⟩).2.log.diagnostics
        (execute settings program' ⟨m', table', .empty⟩).2.log.diagnostics := by
  have hstop : (m'.run settings program').1 = (m.run settings program).1.map (·.moved L) := by rw [hrun]
  -- either both runs stop for a mistake, which is the same one on another line, or neither does
  rcases execute_eq settings program m table with ⟨d, hd, heq⟩ | ⟨hother, heq⟩
  · rw [hd] at hstop
    rcases execute_eq settings program' m' table' with ⟨d', hd', heq'⟩ | ⟨hother', -⟩
    · cases hd'.symm.trans hstop
      rw [heq, heq', Log.diagnostics_report, Log.diagnostics_report]
      exact ⟨rfl, hsome d hd⟩
    · exact absurd hstop (hother' _)
  · -- a stop that is no mistake of the program has no line
    have hsame : (m.run settings program).1.map (·.moved L) = (m.run settings program).1 := by
      revert hother
      match (m.run settings program).1 with
      | some (.error d) => exact fun h => absurd rfl (h d)
      | none | some (.fault f) | some .tooDeep | some .tooLong => exact fun _ => rfl
    rw [hsame] at hstop
    rcases execute_eq settings program' m' table' with ⟨d', hd', -⟩ | ⟨-, heq'⟩
    · exact absurd (hstop.symm.trans hd') (hother d')
    · rw [heq, heq', hstop]
      exact ⟨rfl, hnone⟩

end Session

/-- A file of two texts and a session of the two agree, if the first text comes to its end. Between the texts the log
of the session may be reset or not. -/
theorem file_agrees_with_session (settings : Settings) (wantsTable : Bool) {A B : String} {P Q : List SourceStmt}
    (hA : Reads A P) (hB : Reads B Q) :
    let first := Session.initial.step settings wantsTable none A
    first.stop? = none → first.session.log.diagnostics = [] →
      ∀ between ∈ [first.session, first.session.resetLog],
        Step.Agrees A B (Session.initial.step settings wantsTable none (A ++ "\n" ++ B))
          (between.step settings wantsTable none B) := by
  intro first hend hclean between hbetween
  obtain ⟨m, hrun, hfirst⟩ := Session.first_ends hA hend hclean
  have hbetween' : between = ⟨m, (resolve P).2.entries, .empty⟩ := by
    simp only [List.mem_cons, List.not_mem_nil, or_false] at hbetween
    rcases hbetween with rfl | rfl
    · exact hfirst
    · show first.session.resetLog = _
      rw [hfirst]
      rfl
  subst hbetween'
  have hjoin := hA.join hB
  have hentries := (hA.resolve_join hB).2.1
  obtain ⟨hwholeStop, hwhole⟩ := hjoin.step settings wantsTable (rfl : Session.initial.log = .empty)
  obtain ⟨hsecondStop, hsecond⟩ := hB.step settings wantsTable
    (rfl : (Session.mk m (resolve P).2.entries .empty).log = .empty)
  have hlifted := hA.run_lifted hB hrun
  rw [← hA.run_join hB hrun] at hlifted
  -- the second step runs its text on its own lines, the file on the lines behind the first text
  obtain ⟨hstop, hmistakes⟩ := Session.execute_twins
    (Session.initial.table ++ (resolve (P ++ Stmt.movedAll (Lines.behind A) Q)).2.entries)
    ((resolve P).2.entries ++ (resolve Q).2.entries) hlifted .none fun d hd => hA.mistake_join hB hd
  obtain ⟨hmachine, htable⟩ := Session.execute_leaves settings
    (resolve (P ++ Stmt.movedAll (Lines.behind A) Q)).1 Session.initial.machine
    (Session.initial.table ++ (resolve (P ++ Stmt.movedAll (Lines.behind A) Q)).2.entries)
  obtain ⟨hmachine', htable'⟩ := Session.execute_leaves settings (resolve Q).1 m
    ((resolve P).2.entries ++ (resolve Q).2.entries)
  constructor
  case accepted =>
    rintro ⟨d, hd, hstage⟩
    rw [hwhole] at hd
    rw [hmistakes.stage d hd] at hstage
    exact absurd hstage (by decide)
  case printed =>
    rw [hwhole, hsecond, hmachine, hmachine', hlifted]
    rfl
  case globals =>
    rw [hwhole, hsecond, hmachine, hmachine', hlifted]
    exact (Machine.texts_moved (Lines.lifted A) _).symm
  case table =>
    rw [hwhole, hsecond, htable, htable', List.length_append, List.length_append, hentries]
    exact Nat.zero_add _
  case stop =>
    rw [hwholeStop, hsecondStop]
    exact hstop
  case mistakes =>
    rw [hwhole, hsecond]
    exact hmistakes

set_option maxRecDepth 4096 in
/-- The second text calls a function of the first one, which reads a global that there is not. -/
theorem file_agrees_with_session_inside_call :
    let A := "fun f() \x7b\nreturn g; \x7d"
    let B := "print f;\nf();"
    let name (lexeme : String) (line : Int) : Token := ⟨.identifier, lexeme, .nil, line⟩
    let P : List SourceStmt := [.function ⟨name "f" 1, [],
      [.return ⟨.return, "return", .nil, 2⟩ (some (.variable ⟨name "g" 2, ()⟩))]⟩]
    let Q : List SourceStmt := [.print (.variable ⟨name "f" 1, ()⟩),
      .expression (.call (.variable ⟨name "f" 2, ()⟩) ⟨.rightParen, ")", .nil, 2⟩ [])]
    let settings : Settings := ⟨9, 9, fun _ => 0⟩
    let first := Session.initial.step settings false none A
    Reads A P ∧ Reads B Q ∧ first.stop? = none ∧ first.session.log.diagnostics = [] ∧
      first.session.resetLog ∈ [first.session, first.session.resetLog] ∧
      Step.Agrees A B (Session.initial.step settings false none (A ++ "\n" ++ B))
        (first.session.resetLog.step settings false none B) := by
  intro A B name P Q settings first
  have hA : Reads A P := ⟨by cbv, by cbv, by cbv⟩
  have hB : Reads B Q := ⟨by cbv, by cbv, by cbv⟩
  obtain ⟨hstop, hsession⟩ := hA.step settings false (rfl : Session.initial.log = .empty)
  -- the diagnostic stands at `g`, on the line of the first text in both runs
  have hend : first.stop? = none := by
    rw [hstop]
    cbv
  have hclean : first.session.log.diagnostics = [] := by
    rw [hsession]
    cbv
  have hmem : first.session.resetLog ∈ [first.session, first.session.resetLog] := by simp
  exact ⟨hA, hB, hend, hclean, hmem, file_agrees_with_session settings false hA hB hend hclean _ hmem⟩

end LoxLang
