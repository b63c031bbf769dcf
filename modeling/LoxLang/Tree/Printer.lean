import LoxLang.Fault
import LoxLang.Tree

/-!
# Printing trees

Trees as parenthesised text, operators in front. The text has no escapes. A node of no known form has no text.
-/

namespace LoxLang

/-- A head and its parts in parentheses, separated by blanks. -/
def parenthesize (head : String) (parts : List String) : String :=
  "(" ++ " ".intercalate (head :: parts) ++ ")"

/-- A literal in a tree: strings keep their quotes, numbers are written as `print` writes them. -/
def Literal.source : Literal → String
  | .nil => "nil"
  | .bool b => if b then "true" else "false"
  | .number x => Layout.printed.text x
  | .string s => "\"" ++ s ++ "\""

variable {ρ : Type}

/-- The text of an expression. -/
def Expr.text : Expr ρ → Except Fault String
  | .assign target value => return parenthesize "=" [target.name.lexeme, ← value.text]
  | .binary left operator right
  | .logical left operator right =>
    return parenthesize operator.lexeme [← left.text, ← right.text]
  | .call callee _ arguments => return parenthesize "call" ((← callee.text) :: (← texts arguments))
  | .get object name => return parenthesize "." [name.lexeme, ← object.text]
  | .grouping inner => return parenthesize "group" [← inner.text]
  | .literal value => return value.source
  | .set object name value => return parenthesize "=" [".", name.lexeme, ← object.text, ← value.text]
  | .super _ method => return parenthesize "super" [method.lexeme]
  | .this _ => return "this"
  | .unary operator right => return parenthesize operator.lexeme [← right.text]
  | .variable reference => return reference.name.lexeme
  | .unknown => throw (.noRule "AstPrinter" .expression)
where
  texts : List (Expr ρ) → Except Fault (List String)
    | [] => return []
    | e :: es => return (← e.text) :: (← texts es)

/-- The text of an expression that may be missing. -/
def Expr.optionText : Option (Expr ρ) → Except Fault (List String)
  | some e => return [← e.text]
  | none => return []

mutual

/-- The text of a statement. -/
def Stmt.text : Stmt ρ → Except Fault String
  | .block body => return parenthesize "block" (← Stmt.texts body)
  | .expression value => return parenthesize ";" [← value.text]
  | .function declaration => declaration.text
  | .class name superclass methods =>
    let heritage := superclass.elim [] fun r => ["<", r.name.lexeme]
    return parenthesize "class" (name.lexeme :: heritage ++ (← FunDecl.texts methods))
  | .if condition thenBranch elseBranch => do
    let c ← condition.text
    let t ← thenBranch.text
    match elseBranch with
    | some s => return parenthesize "if" [c, t, ← s.text]
    | none => return parenthesize "if" [c, t]
  | .print value => return parenthesize "print" [← value.text]
  | .return _ value => return parenthesize "return" (← Expr.optionText value)
  | .var name initializer => return parenthesize "var" (name.lexeme :: (← Expr.optionText initializer))
  | .while condition body => return parenthesize "while" [← condition.text, ← body.text]
  | .unknown => throw (.noRule "AstPrinter" .statement)

/-- The texts of statements. -/
def Stmt.texts : List (Stmt ρ) → Except Fault (List String)
  | [] => return []
  | s :: ss => return (← s.text) :: (← Stmt.texts ss)

/-- The text of a function. -/
def FunDecl.text : FunDecl ρ → Except Fault String
  | ⟨name, params, body⟩ => do
    let list := "(" ++ " ".intercalate (params.map (·.lexeme)) ++ ")"
    return parenthesize "fun" (name.lexeme :: list :: (← Stmt.texts body))

/-- The texts of functions. -/
def FunDecl.texts : List (FunDecl ρ) → Except Fault (List String)
  | [] => return []
  | d :: ds => return (← d.text) :: (← FunDecl.texts ds)

end

/-- The text of a node. -/
def Node.text : Node ρ → Except Fault String
  | .expr e => e.text
  | .stmt s => s.text

/-- The texts of a program's statements, one below the other. -/
def programText (program : List (Stmt ρ)) : Except Fault String :=
  return "\n".intercalate (← Stmt.texts program)

end LoxLang
