import LoxLang.Analysis

/-!
# Editor support

What an editor shows about a text that is being written: its diagnostics, line by line, and the words that can
stand in it. The text is never run.
-/

namespace LoxLang

namespace Editor

/-- A mark on a whole line; lines count from zero. -/
structure Mark where
  line : Int
  message : String
deriving DecidableEq, Inhabited

/-- The columns that a mark covers, as far as anyone writes. -/
def markColumns : Nat × Nat := (0, 100)

/-- The mark of a diagnostic. -/
def Mark.of (d : Diagnostic) : Mark :=
  { line := max (d.line - 1) 0, message := d.summary }

/-- The marks of a text. -/
def marks (source : String) : List Mark :=
  (analyse false source).log.diagnostics.map .of

/-- The sorts of words. -/
inductive ItemKind where
  | keyword | function | class : ItemKind | variable
deriving DecidableEq, Inhabited

/-- The name of a sort of words. -/
def ItemKind.name : ItemKind → String
  | .keyword => "Keyword"
  | .function => "Function"
  | .class => "Class"
  | .variable => "Variable"

/-- A word that can be completed. -/
structure Item where
  label : String
  kind : ItemKind
  detail? : Option String := none
deriving DecidableEq, Inhabited

/-- The item of a declaration. -/
def Item.ofStmt? {ρ : Type} : Stmt ρ → Option Item
  | .class name _ _ => some { label := name.lexeme, kind := .class }
  | .function ⟨name, params, _⟩ =>
    let signature := "fun " ++ name.lexeme ++ "(" ++ ", ".intercalate (params.map (·.lexeme)) ++ ")"
    some { label := name.lexeme, kind := .function, detail? := some signature }
  | .var name _ => some { label := name.lexeme, kind := .variable }
  | _ => none

/-- The keywords, the clock, and what a text declares outside of every block. -/
def items (source : String) : List Item :=
  Kind.keywords.map (fun (word, _) => { label := word, kind := .keyword }) ++
    [{ label := "clock", kind := .function, detail? := some "Native function" }] ++
    (analyse false source).program.filterMap Item.ofStmt?

/-! ### Documents

An editor changes its documents by giving their whole text. -/

/-- The open documents by their names. -/
abbrev Documents := List (String × String)

/-- Opens a document, with a new text if it is open. -/
def Documents.put (documents : Documents) (name text : String) : Documents :=
  (name, text) :: documents.filter (·.1 != name)

/-- The text of a document, if it is open. -/
def Documents.text? (documents : Documents) (name : String) : Option String :=
  documents.lookup name

/-- Exchanges the text of a document, if it is open. -/
def Documents.change? (documents : Documents) (name text : String) : Option Documents :=
  (documents.text? name).map fun _ => documents.put name text

end Editor

end LoxLang
