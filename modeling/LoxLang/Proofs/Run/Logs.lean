import LoxLang.Diagnostic

/-!
# Logs and their marks

A log stores two marks beside its diagnostics, and each report sets one of them. Nothing but the reports ties the
marks to the diagnostics:

* **`Log.Honest`** — the marks say of which stages there are diagnostics.
* **`Log.Honest.handle`**, **`Log.honest_after`** — so it stays after every report and every reset.
* **`Log.handle_unknown`** — a report under a name of no stage leaves the log as it is.
-/

namespace LoxLang

namespace Log

/-! ## What is added

A log is written to at its end. What one report does to it is computed, and then what several do. -/

/-- The diagnostic is put at the end. -/
@[simp] theorem diagnostics_report (log : Log) (d : Diagnostic) :
    (log.report d).diagnostics = log.diagnostics ++ [d] := by
  unfold report
  split <;> rfl

/-- The mark for static errors is set unless it is a runtime error. -/
@[simp] theorem hadError_report (log : Log) (d : Diagnostic) :
    (log.report d).hadError = (log.hadError || !d.isRuntime) := by
  unfold report
  by_cases h : d.isRuntime = true <;> simp [h]

/-- The mark for runtime errors is set if it is one. -/
@[simp] theorem hadRuntimeError_report (log : Log) (d : Diagnostic) :
    (log.report d).hadRuntimeError = (log.hadRuntimeError || d.isRuntime) := by
  unfold report
  by_cases h : d.isRuntime = true <;> simp [h]

theorem append_nil (log : Log) : log.append [] = log := rfl

theorem append_cons (log : Log) (d : Diagnostic) (ds : List Diagnostic) :
    log.append (d :: ds) = (log.report d).append ds := rfl

/-- The diagnostics are put at the end, in order. -/
@[simp] theorem diagnostics_append (log : Log) (ds : List Diagnostic) :
    (log.append ds).diagnostics = log.diagnostics ++ ds := by
  induction ds generalizing log with
  | nil => rw [append_nil, List.append_nil]
  | cons d ds ih => rw [append_cons, ih, diagnostics_report, List.append_assoc, List.singleton_append]

/-- The mark is set if one of the reports sets it. -/
@[simp] theorem hadError_append (log : Log) (ds : List Diagnostic) :
    (log.append ds).hadError = (log.hadError || ds.any (!·.isRuntime)) := by
  induction ds generalizing log with
  | nil => rw [append_nil, List.any_nil, Bool.or_false]
  | cons d ds ih => rw [append_cons, ih, hadError_report, List.any_cons, Bool.or_assoc]

/-- A log without errors has none of those that were reported last. -/
theorem eq_nil_of_hadError {log : Log} {ds : List Diagnostic} (hds : ∀ d ∈ ds, d.isRuntime = false)
    (h : ¬ (log.append ds).hadError = true) : ds = [] := by
  rw [hadError_append, Bool.not_eq_true, Bool.or_eq_false_iff] at h
  have hnone := List.any_eq_false.mp h.2
  apply List.eq_nil_iff_forall_not_mem.mpr
  intro d hd
  apply hnone d hd
  rw [hds d hd]
  rfl

/-! ## What the marks say

Honesty is an invariant of all that can be done to a log, and so holds in every session. -/

/-- The marks say of which stages there are diagnostics. -/
structure Honest (log : Log) : Prop where
  hadError : log.hadError = true ↔ ∃ d ∈ log.diagnostics, d.stage ∈ [Stage.scan, .parse, .resolve]
  hadRuntimeError : log.hadRuntimeError = true ↔ ∃ d ∈ log.diagnostics, d.stage = .runtime

/-- What is done to a log. -/
inductive Action where
  /-- The stage of a report is given by name. -/
  | report (stage : String) (cause : Cause) (token? : Option Token) (line? : Option Int)
  | reset

/-- The log after an action. -/
def handle (log : Log) : Action → Log
  | .report stage cause token? line? => (log.reportAs stage cause token? line?).2
  | .reset => .empty

theorem honest_empty : empty.Honest := by
  constructor <;> simp [empty]

/-- A diagnostic is static if it is of one of the first three stages. -/
theorem static_iff (d : Diagnostic) :
    (!d.isRuntime) = true ↔ d.stage ∈ [Stage.scan, .parse, .resolve] := by
  unfold Diagnostic.isRuntime
  cases d.stage <;> decide

/-- One report sets the mark of its stage. -/
theorem Honest.report {log : Log} (h : log.Honest) (d : Diagnostic) : (log.report d).Honest := by
  constructor
  · rw [hadError_report, Bool.or_eq_true, static_iff d, h.hadError, diagnostics_report]
    simp only [List.mem_append, List.mem_singleton, or_and_right, exists_or, exists_eq_left]
  · rw [hadRuntimeError_report, Bool.or_eq_true, h.hadRuntimeError, diagnostics_report]
    simp only [List.mem_append, List.mem_singleton, or_and_right, exists_or, exists_eq_left,
      Diagnostic.isRuntime, decide_eq_true_eq]

theorem Honest.append {log : Log} (h : log.Honest) (ds : List Diagnostic) : (log.append ds).Honest := by
  induction ds generalizing log with
  | nil => exact h
  | cons d ds ih => exact ih (h.report d)

/-- Under a name of no stage nothing is recorded. -/
theorem handle_unknown (log : Log) {stage : String} (h : Stage.ofName? stage = none) (cause : Cause)
    (token? : Option Token) (line? : Option Int) : log.handle (.report stage cause token? line?) = log := by
  show (log.reportAs stage cause token? line?).2 = log
  rw [reportAs, h]

/-- A report under a name, which may be that of a stage or not, or a reset. -/
theorem Honest.handle {log : Log} (h : log.Honest) (action : Action) : (log.handle action).Honest := by
  cases action with
  | reset => exact honest_empty
  | report stage cause token? line? =>
    cases hstage : Stage.ofName? stage with
    | none =>
      rw [handle_unknown log hstage]
      exact h
    | some s =>
      have hreport : log.handle (.report stage cause token? line?) = log.report ⟨s, cause, token?, line?⟩ := by
        show (log.reportAs stage cause token? line?).2 = _
        rw [reportAs, hstage]
      rw [hreport]
      exact h.report _

/-- After any actions on an empty log the marks say what its diagnostics are. -/
theorem honest_after (actions : List Action) : (actions.foldl Log.handle .empty).Honest := by
  suffices h : ∀ log : Log, log.Honest → (actions.foldl Log.handle log).Honest from h _ honest_empty
  induction actions with
  | nil => exact fun _ h => h
  | cons action actions ih => exact fun log h => ih _ (h.handle action)

end Log

end LoxLang
