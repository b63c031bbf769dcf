import LoxLang.Editor
import LoxLang.Proofs.Lines.Parser
import LoxLang.Proofs.Session.Joined

/-!
# What an editor shows

An editor analyses a text without running it, a pipeline runs it stage by stage. Both find the same, as far as the
analysis goes, and each diagnostic stands in the text.

* **`Diagnostic.StandsIn`** — a diagnostic on a line of a text, or at one of its tokens.
* **`analyse_stands`** — the diagnostics of an analysis.
* **`Session.step_reports`** — a run reports these and at most one more.
* **`editor_shows_run`** — so an editor shows what a run would report.
-/

namespace LoxLang

/-! ## Diagnostics in a text

A diagnostic stands at a line or at a token. An editor shows it there, and it has to be a place of the text. -/

/-- A diagnostic of a text: one of the scanner on a line of the text, or one of a later stage at a token of it. -/
inductive Diagnostic.StandsIn (source : String) : Diagnostic → Prop where
  | line {cause : Cause} {line : Nat} (hfirst : 1 ≤ line) (hlast : line ≤ 1 + newlines source) :
    StandsIn source { stage := .scan, cause, line? := some line }
  | token {stage : Stage} {cause : Cause} {t : Token} (hstage : stage ≠ .scan) (ht : t ∈ (scan source).tokens) :
    StandsIn source (.ofToken stage cause t)

/-- A token of a text is the end or stands before it. -/
theorem mem_scan_tokens {source : String} {t : Token} :
    t ∈ (scan source).tokens ↔ t ∈ lexed source ∨ t = .eof (1 + newlines source : Nat) := by
  rw [scan_tokens, List.mem_append, List.mem_singleton]

namespace Diagnostic

variable {source : String} {d : Diagnostic}

/-- The line is one of the text. -/
theorem StandsIn.line_le (h : d.StandsIn source) : 1 ≤ d.line ∧ d.line ≤ 1 + newlines source := by
  cases h with
  | @line cause line hfirst hlast =>
    show (1 : Int) ≤ line ∧ (line : Int) ≤ _
    omega
  | @token stage cause t _ ht =>
    show 1 ≤ t.line ∧ t.line ≤ 1 + newlines source
    rcases mem_scan_tokens.mp ht with ht | rfl
    · have hline := line_of_mem_lexed ht
      omega
    · show (1 : Int) ≤ (1 + newlines source : Nat) ∧ ((1 + newlines source : Nat) : Int) ≤ _
      omega

/-- A diagnostic at a token says where. -/
theorem place_ne_empty {stage : Stage} {cause : Cause} {t : Token} : (ofToken stage cause t).place ≠ "" := by
  show (if t.kind = .eof then " at end" else " at '" ++ t.lexeme ++ "'") ≠ ""
  split
  · decide
  · intro h
    simpa using congrArg String.toList h

/-- Only the end of a text is called so: the lexeme of any other token is quoted. -/
theorem place_eq_end_iff {stage : Stage} {cause : Cause} {t : Token} :
    (ofToken stage cause t).place = " at end" ↔ t.kind = .eof := by
  show (if t.kind = .eof then " at end" else " at '" ++ t.lexeme ++ "'") = " at end" ↔ _
  split
  next heof => exact ⟨fun _ => heof, fun _ => rfl⟩
  next heof =>
    refine ⟨fun h => ?_, fun h => absurd h heof⟩
    have hchars := congrArg String.toList h
    simp at hchars

/-- It says that it stands at the end exactly if it stands at the end token. -/
theorem StandsIn.place_end (h : d.StandsIn source) :
    d.place = " at end" ↔ d.token? = (scan source).tokens.getLast? := by
  rw [scan_tokens, List.getLast?_concat]
  cases h with
  | line => exact ⟨fun h => absurd h (by show ¬ ("" = " at end"); decide), fun h => nomatch h⟩
  | @token stage cause t _ ht =>
    rw [place_eq_end_iff]
    refine ⟨fun heof => ?_, fun h => ?_⟩
    · rcases mem_scan_tokens.mp ht with ht | rfl
      · exact absurd heof (kind_of_mem_lexed ht)
      · rfl
    · obtain rfl := Option.some.inj h
      rfl

/-- It names no place exactly if the scanner has found it. -/
theorem StandsIn.place_empty (h : d.StandsIn source) : d.place = "" ↔ d.stage = .scan := by
  cases h with
  | line => exact ⟨fun _ => rfl, fun _ => rfl⟩
  | token hstage _ => exact ⟨fun h => absurd h place_ne_empty, fun h => absurd h hstage⟩

end Diagnostic

/-! ## What the stages find

Each stage complains about what it was given: pieces of the text, tokens, or references and declarations of the tree. -/

/-- A complaint about a piece is on the line where the piece ends. -/
theorem mem_diagnosticsFrom {line : Nat} {ps : List Piece} {d : Diagnostic} (h : d ∈ diagnosticsFrom line ps) :
    ∃ cause, ∃ l : Nat, d = { stage := .scan, cause, line? := some (l : Int) } ∧ line ≤ l ∧
      l ≤ line + newlinesOf ps := by
  induction ps generalizing line with
  | nil => cases h
  | cons p ps ih =>
    have hsum : newlinesOf (p :: ps) = p.newlines + newlinesOf ps := rfl
    rcases List.mem_append.mp h with hp | hps
    · cases p with
      | unexpected | unterminated =>
        obtain rfl := List.mem_singleton.mp hp
        exact ⟨_, _, rfl, by omega, by omega⟩
      | _ => cases hp
    · obtain ⟨cause, l, rfl, hfirst, hlast⟩ := ih hps
      exact ⟨cause, l, rfl, by omega, by omega⟩

theorem scan_stands {source : String} {d : Diagnostic} (h : d ∈ (scan source).diagnostics) : d.StandsIn source := by
  obtain ⟨cause, l, rfl, hfirst, hlast⟩ := mem_diagnosticsFrom h
  rw [newlinesOf_cut] at hlast
  exact .line hfirst hlast

/-- The parser complains about tokens of the text. -/
theorem parse_stands {source : String} {parsed : Parsed} (h : parse (scan source).tokens = some parsed)
    {d : Diagnostic} (hd : d ∈ parsed.diagnostics) : d.StandsIn source := by
  obtain ⟨cause, t, ht, rfl⟩ := parse_complaints h d hd
  exact .token (by decide) ht

/-- What the resolver complains about stands at tokens of the program: where these stay, the complaints stay. -/
theorem resolve_stands {source : String} {program : List SourceStmt}
    (h : parse (scan source).tokens = some ⟨program, []⟩) {d : Diagnostic}
    (hd : d ∈ (resolve program).2.diagnostics) : d.StandsIn source := by
  obtain ⟨program', ds, hparse, hformed⟩ := parse_scan source
  cases h.symm.trans hparse
  let L := Lines.astray (scan source).tokens
  -- the lines are moved wherever no token of the text is, which changes none of its tokens
  have hstay : (scan source).tokens.map (·.moved L) = (scan source).tokens := by
    conv_rhs => rw [← List.map_id (scan source).tokens]
    exact List.map_congr_left fun u hu => Token.moved_astray.mpr hu
  have hprogram : Stmt.movedAll L program = program := by
    have hmoved := parse_moved L (scan source).tokens
    rw [hstay, h] at hmoved
    exact (congrArg Parsed.program (Option.some.inj hmoved)).symm
  have hfound := (resolve_moved (L := L) hformed).2.2
  rw [hprogram] at hfound
  obtain ⟨cause, t, rfl⟩ := resolve_complaints h d hd
  have htoken := List.map_inj_left.mp (hfound.symm.trans (List.map_id _).symm) _ hd
  refine .token (by decide) (Token.moved_astray.mp ?_)
  simpa [Diagnostic.moved, Diagnostic.ofToken] using htoken

/-- A mistake of a program that runs on a new machine stands at a token of its text. -/
theorem Reads.mistake_stands {source : String} {program : List SourceStmt} (h : Reads source program)
    {settings : Settings} {d : Diagnostic}
    (hd : (Machine.initial.run settings (resolve program).1).1 = some (.error d)) :
    d.stage = .runtime ∧ d.StandsIn source := by
  have hruntime := (Machine.run_ran settings (anyReturns_resolve h.parsed h.resolved) .initial).2
  obtain ⟨cause, t, rfl⟩ := hruntime _ hd d rfl
  exact ⟨rfl, .token (by decide) (mem_scan_tokens.mpr (.inl (h.mistake_mem hd)))⟩

/-! ## Analyses and runs

An analysis is a run that goes no further than the resolver; its log is the beginning of the log of the run. -/

/-- The log of a text when it has been parsed. -/
def syntaxLog (source : String) (parsed : Parsed) : Log :=
  (Log.empty.append (scan source).diagnostics).append parsed.diagnostics

section

variable {source : String} {parsed : Parsed}

/-- The scanner's complaints come before the parser's. -/
theorem diagnostics_syntaxLog :
    (syntaxLog source parsed).diagnostics = (scan source).diagnostics ++ parsed.diagnostics := by
  rw [syntaxLog, Log.diagnostics_append, Log.diagnostics_append]
  rfl

/-- Without a mark nothing is wrong with the syntax. -/
theorem syntaxLog_clean (hparse : parse (scan source).tokens = some parsed)
    (h : ¬ (syntaxLog source parsed).hadError = true) :
    (scan source).diagnostics = [] ∧ parsed.diagnostics = [] := by
  have hparsed : parsed.diagnostics = [] := Log.eq_nil_of_stage (parse_stage hparse) (by decide) h
  rw [syntaxLog, hparsed] at h
  exact ⟨Log.eq_nil_of_stage (scan_stage source) (by decide) h, hparsed⟩

/-- The resolver is asked only if scanner and parser had nothing to say. -/
theorem analyse_log (hparse : parse (scan source).tokens = some parsed) :
    (analyse false source).log =
      if (syntaxLog source parsed).hadError then syntaxLog source parsed
      else (syntaxLog source parsed).append (resolve parsed.program).2.diagnostics := by
  unfold analyse
  dsimp only
  rw [hparse, Option.getD_some]
  show Analysis.log (if ((syntaxLog source parsed).hadError && true) = true then _ else _) = _
  rw [Bool.and_true]
  split <;> rfl

/-- Every diagnostic of an analysis is one of the first three stages and stands in the text. -/
theorem analyse_stands {d : Diagnostic} (h : d ∈ (analyse false source).log.diagnostics) :
    d.stage ∈ [Stage.scan, .parse, .resolve] ∧ d.StandsIn source := by
  obtain ⟨program, ds, hparse, -⟩ := parse_scan source
  rw [analyse_log hparse] at h
  split at h
  next =>
    rw [diagnostics_syntaxLog] at h
    rcases List.mem_append.mp h with hd | hd
    · exact ⟨by simp [scan_stage source d hd], scan_stands hd⟩
    · exact ⟨by simp [parse_stage hparse d hd], parse_stands hparse hd⟩
  next hclean =>
    obtain ⟨hscanned, rfl⟩ := syntaxLog_clean hparse hclean
    rw [Log.diagnostics_append, diagnostics_syntaxLog, hscanned] at h
    exact ⟨by simp [resolve_stage hparse d h], resolve_stands hparse h⟩

/-- On a new session a run reports what an analysis finds. What it may report besides is a mistake of the running
program. -/
theorem Session.step_reports (settings : Settings) (wantsTable : Bool) (source : String) :
    ∃ ds, (initial.step settings wantsTable none source).session.log.diagnostics
        = (analyse false source).log.diagnostics ++ ds ∧
      ∀ d ∈ ds, d.stage = .runtime ∧ d.StandsIn source := by
  obtain ⟨program, ds, hparse, -⟩ := parse_scan source
  rw [analyse_log hparse]
  have hadvances := initial.step_advances settings wantsTable none hparse
  generalize (initial.step settings wantsTable none source).session = s' at hadvances ⊢
  cases hadvances with
  | scanned htokens => cases htokens
  | parsed hends =>
    have herror : (syntaxLog source ⟨program, ds⟩).hadError = true := hends.resolve_right (by decide)
    rw [if_pos herror]
    exact ⟨[], (List.append_nil _).symm, List.forall_mem_nil _⟩
  | resolved _ hparsed =>
    have hclean : ¬ (syntaxLog source ⟨program, ds⟩).hadError = true := fun h => hparsed (.inl h)
    rw [if_neg hclean]
    exact ⟨[], (List.append_nil _).symm, List.forall_mem_nil _⟩
  | executed _ hparsed hresolved =>
    have hclean : ¬ (syntaxLog source ⟨program, ds⟩).hadError = true := fun h => hparsed (.inl h)
    obtain ⟨hscanned, rfl⟩ := syntaxLog_clean hparse hclean
    have hfound : (resolve program).2.diagnostics = [] :=
      Log.eq_nil_of_stage (resolve_stage hparse) (by decide) hresolved
    have hreads : Reads source program := ⟨hscanned, hparse, hfound⟩
    -- nothing has been reported before the program runs
    have hbefore : ((initial.report (scan source).diagnostics).report []).enter (resolve program).2
        = ⟨.initial, (resolve program).2.entries, .empty⟩ := by
      rw [hscanned, enter, hfound]
      rfl
    have hempty : ((syntaxLog source ⟨program, []⟩).append (resolve program).2.diagnostics).diagnostics = [] := by
      rw [hfound, Log.append_nil, diagnostics_syntaxLog, hscanned]
      rfl
    rw [if_neg hclean, hempty, hbefore]
    rcases execute_eq settings (resolve program).1 .initial (resolve program).2.entries with ⟨d, hd, heq⟩ | ⟨-, heq⟩
    · rw [heq]
      exact ⟨[d], Log.diagnostics_report _ _, List.forall_mem_singleton.mpr (hreads.mistake_stands hd)⟩
    · rw [heq]
      exact ⟨[], rfl, List.forall_mem_nil _⟩

end

/-! ## Marks

What is shown of a diagnostic is its line and its place in it. -/

/-- **An editor shows what a run would report.** The marks of a text are the diagnostics of a run up to the resolver,
in their order, with their messages and places, each one line up since lines count from zero there; so they are on
lines of the text. Every diagnostic of the run stands on a line of the text. It says that it is at the end exactly if
it is at the end token, and names no place exactly if it is the scanner's. -/
theorem editor_shows_run (settings : Settings) (source : String) (file? : Option Location) (files : FileTree) :
    let job : Job := { source, file?, dump := [], stopAfter := none }
    let log := ((Pipeline.start job .initial files).run settings).2.session.log
    Editor.marks source
        = (log.diagnostics.filter (·.stage ∈ [.scan, .parse, .resolve])).map (fun d => ⟨d.line - 1, d.summary⟩) ∧
      (∀ m ∈ Editor.marks source, 0 ≤ m.line ∧ m.line ≤ newlines source) ∧
      ∀ d ∈ log.diagnostics, (1 ≤ d.line ∧ d.line ≤ 1 + newlines source) ∧
        (d.place = " at end" ↔ d.token? = (scan source).tokens.getLast?) ∧ (d.place = "" ↔ d.stage = .scan) := by
  intro job log
  obtain ⟨ds, hlog, hds⟩ := Session.step_reports settings (.resolution ∈ job.dump) source
  have hsession := (Pipeline.run_start settings (rfl : job.dump = job.stopAfter.toList) .initial files).1
  have hdiagnostics : log.diagnostics = (analyse false source).log.diagnostics ++ ds := by
    rw [← hlog]
    exact congrArg (·.log.diagnostics) hsession
  have hstands : ∀ d ∈ log.diagnostics, d.StandsIn source := by
    rw [hdiagnostics]
    exact List.forall_mem_append.mpr ⟨fun d hd => (analyse_stands hd).2, fun d hd => (hds d hd).2⟩
  have hmarks : Editor.marks source
      = (analyse false source).log.diagnostics.map (fun d => ⟨d.line - 1, d.summary⟩) := by
    apply List.map_congr_left
    intro d hd
    have hline := (analyse_stands hd).2.line_le.1
    show Editor.Mark.mk (max (d.line - 1) 0) d.summary = _
    rw [max_eq_left (by omega)]
  refine ⟨?_, ?_, ?_⟩
  · -- what the run adds is filtered out
    have hstatic : (analyse false source).log.diagnostics.filter (·.stage ∈ [.scan, .parse, .resolve])
        = (analyse false source).log.diagnostics :=
      List.filter_eq_self.mpr fun d hd => decide_eq_true (analyse_stands hd).1
    have hruntime : ds.filter (·.stage ∈ [.scan, .parse, .resolve]) = [] :=
      List.filter_eq_nil_iff.mpr fun d hd => by simp [(hds d hd).1]
    rw [hmarks, hdiagnostics, List.filter_append, hstatic, hruntime, List.append_nil]
  · intro m hm
    rw [hmarks] at hm
    obtain ⟨d, hd, rfl⟩ := List.mem_map.mp hm
    have hline := (analyse_stands hd).2.line_le
    show 0 ≤ d.line - 1 ∧ d.line - 1 ≤ newlines source
    omega
  · intro d hd
    exact ⟨(hstands d hd).line_le, (hstands d hd).place_end, (hstands d hd).place_empty⟩

end LoxLang
