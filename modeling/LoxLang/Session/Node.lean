import LoxLang.Run.Inspect
import LoxLang.Session
import LoxLang.Tree.Printer

/-!
# Single nodes in a session

Shows, resolves and runs one node, each step whatever the others said.
-/

namespace LoxLang

/-- What became of a node in the three steps. -/
structure NodeReport where
  text : Except Fault String
  /-- The fault of the resolution, if it was tried and went wrong. -/
  fault? : Option Fault
  diagnostics : List Diagnostic
  result : Except Stop NodeResult

/-- Shows and runs a node, after resolving it if `resolves`. A mistake at run time is part of the report and not
of the log. -/
def Session.node (settings : Settings) (resolves : Bool) (node : Node Unit) (s : Session) :
    NodeReport × Session :=
  let (resolved, found) :=
    if resolves then node.resolve
    else
      match node with
      | .expr e => (.expr (e.mapNotes fun _ => none), {})
      | .stmt s => (.stmt (s.mapNotes fun _ => none), {})
  let ⟨machine, table, log⟩ := s
  let (result, machine) := Eval.node settings resolved machine
  ({ text := node.text, fault? := found.fault?, diagnostics := found.diagnostics, result },
    ⟨machine, table ++ found.entries, log.append found.diagnostics⟩)

end LoxLang
