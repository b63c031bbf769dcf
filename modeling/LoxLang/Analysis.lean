import LoxLang.Parse.Program
import LoxLang.Scope.Resolve
import LoxLang.Token.Scan

/-!
# Analysis without execution

Scans, parses and resolves a text. A text with syntax errors is not resolved unless that is forced.
-/

namespace LoxLang

/-- What is known of a text that is not run. -/
structure Analysis where
  tokens : List Token
  program : List SourceStmt
  /-- The findings of the resolution, if there was one. -/
  findings? : Option Findings
  log : Log

/-- Analyses a text. -/
def analyse (force : Bool) (source : String) : Analysis :=
  let scanned := scan source
  let ⟨program, diagnostics⟩ := (parse scanned.tokens).getD ⟨[], []⟩
  let log := (Log.empty.append scanned.diagnostics).append diagnostics
  if log.hadError && !force then
    { tokens := scanned.tokens, program, findings? := none, log }
  else
    let found := (resolve program).2
    { tokens := scanned.tokens, program, findings? := some found, log := log.append found.diagnostics }

end LoxLang
