import LoxLang.Fault
import LoxLang.Tree

/-!
# Distance tables

The table of a session holds an entry for each reference to a local name, in the order in which they were
resolved.
-/

namespace LoxLang

/-- The forms of expressions that refer to a name. -/
inductive ReferenceKind where
  | variable | assign | this | super
deriving DecidableEq, Inhabited

/-- The name of a kind of reference. -/
def ReferenceKind.name : ReferenceKind → String
  | .variable => "variable"
  | .assign => "assign"
  | .this => "this"
  | .super => "super"

/-- A reference with the number of scopes between it and the declaration of its name. -/
structure Entry where
  name : String
  line : Int
  kind : ReferenceKind
  depth : Int
deriving DecidableEq, Inhabited

/-- The entry of a reference. -/
def Entry.of (kind : ReferenceKind) (token : Token) (depth : Int) : Entry :=
  ⟨token.lexeme, token.line, kind, depth⟩

/-- The entry of an expression, if it refers to a name. -/
def Entry.ofExpr {ρ : Type} (e : Expr ρ) (depth : Int) : Except Fault Entry :=
  match e with
  | .variable reference => return .of .variable reference.name depth
  | .assign target _ => return .of .assign target.name depth
  | .this keyword => return .of .this keyword.name depth
  | .super keyword _ => return .of .super keyword.name depth
  | e => throw (.notReference e.form)

/-- The table in the order of the lines; on one line the order of resolution remains. -/
def describe (table : List Entry) : List Entry :=
  table.mergeSort fun a b => a.line ≤ b.line

end LoxLang
