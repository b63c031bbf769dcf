import LoxLang.Parse.Expression

/-!
# Parsing programs

Statements, declarations and whole programs. A syntax error drops the declaration it stands in: reading goes on
after the next semicolon or before the next word that begins a statement.
-/

namespace LoxLang

namespace Parser

/-! ### Recovery

A mismatch is complained about where it is found and ends the innermost declaration. The tokens up to there have
been read, and whoever reads that declaration goes on from the next statement. Other failures are handed on. -/

/-- The kinds that begin a statement or a declaration. -/
def statementStarts : List Kind :=
  [.class, .fun, .var, .for, .if, .while, .print, .return]

/-- The tokens from the next statement on, when `previous` has just been passed. -/
def nextStatement (previous : Token) : Parser Unit
  | [] => ⟨.error .pastEnd, [], []⟩
  | t :: ts =>
    if t.kind = .eof ∨ previous.kind = .semicolon ∨ t.kind ∈ statementStarts then
      ⟨.ok (), t :: ts, []⟩
    else
      nextStatement t ts

/-- Passes the offending token, then goes to the next statement. -/
def synchronize : Parser Unit
  | [] => ⟨.error .pastEnd, [], []⟩
  | t :: ts => if t.kind = .eof then ⟨.ok (), t :: ts, []⟩ else nextStatement t ts

/-- A statement, or none when it was broken and has been passed over. -/
def orSynchronize (p : Parser SourceStmt) : Parser (Option SourceStmt) := fun ts =>
  match p ts with
  | ⟨.ok s, rest, ds⟩ => ⟨.ok (some s), rest, ds⟩
  | ⟨.error .mismatch, rest, ds⟩ =>
    let reply := synchronize rest
    ⟨reply.result.map fun _ => none, reply.rest, ds⟩
  | ⟨.error e, rest, ds⟩ => ⟨.error e, rest, ds⟩

/-! ### Blocks and functions

What is nested in a block are declarations, and each of them recovers by itself. A broken one leaves nothing in the
list. -/

/-- The declarations of a block and its closing brace; the opening one has been read. -/
def block (declaration : Parser (Option SourceStmt)) : Parser (List SourceStmt) := do
  let body ← sized (whileM inside declaration)
  let _ ← expect .rightBrace "'\x7d' after block"
  return body.filterMap id
where
  /-- Neither the closing brace nor the end is in front. -/
  inside : Parser Bool := do
    let t ← peek
    return t.kind != .rightBrace && t.kind != .eof

/-- A function from its name on; `what` it is stands in the complaints. -/
def function (declaration : Parser (Option SourceStmt)) (what : String) : Parser SourceFun := do
  let name ← expect .identifier (what ++ " name")
  let _ ← expect .leftParen ("'(' after " ++ what ++ " name")
  let params ← untilParen (.tooManyParameters (toString maxArguments))
    (expect .identifier "parameter name")
  let _ ← expect .rightParen "')' after parameters"
  let _ ← expect .leftBrace ("'\x7b' before " ++ what ++ " body")
  let body ← block declaration
  return ⟨name, params, body⟩

/-- A class after the word `class`. -/
def classDeclaration (declaration : Parser (Option SourceStmt)) : Parser SourceStmt := do
  let name ← expect .identifier "class name"
  let mut superclass := none
  if ← accept .less then
    superclass := some (.bare (← expect .identifier "superclass name"))
  let _ ← expect .leftBrace "'\x7b' before class body"
  let methods ← sized (whileM block.inside (function declaration "method"))
  let _ ← expect .rightBrace "'\x7d' after class body"
  return .class name superclass methods

/-- A variable after the word `var`. -/
def varDeclaration : Parser SourceStmt := do
  let name ← expect .identifier "variable name"
  let mut initializer := none
  if ← accept .equal then
    initializer := some (← expression)
  let _ ← expect .semicolon "';' after variable declaration"
  return .var name initializer

/-! ### Statements

The parsers take the parsers for what is nested in them. `for` has no tree of its own: it is written with a block and a
`while`. -/

/-- An expression and its semicolon. -/
def expressionStatement : Parser SourceStmt := do
  let value ← expression
  let _ ← expect .semicolon "';' after expression"
  return .expression value

/-- The block that a `for` statement stands for: the initializer, then a loop whose body is followed by the
increment. Without a condition the loop goes on for ever. -/
def forBlock (initializer : Option SourceStmt) (condition increment : Option SourceExpr)
    (body : SourceStmt) : SourceStmt :=
  let body :=
    match increment with
    | some e => .block [body, .expression e]
    | none => body
  .block (initializer.toList ++ [.while (condition.getD (.literal (.bool true))) body])

/-- An expression, unless a token of this kind is in front. -/
def expressionUnless (kind : Kind) : Parser (Option SourceExpr) := do
  if ← check kind then
    return none
  else
    return some (← expression)

/-- The first clause of a `for` statement with its semicolon, which may stand alone. -/
def loopInitializer : Parser (Option SourceStmt) := do
  if ← accept .semicolon then
    return none
  else if ← accept .var then
    return some (← varDeclaration)
  else
    return some (← expressionStatement)

/-- A `for` statement after its keyword. -/
def forStatement (statement : Parser SourceStmt) : Parser SourceStmt := do
  let _ ← expect .leftParen "'(' after 'for'"
  let initializer ← loopInitializer
  let condition ← expressionUnless .semicolon
  let _ ← expect .semicolon "';' after loop condition"
  let increment ← expressionUnless .rightParen
  let _ ← expect .rightParen "')' after for clauses"
  let body ← statement
  return forBlock initializer condition increment body

/-- An `if` statement after its keyword. An `else` belongs to the nearest `if`. -/
def ifStatement (statement : Parser SourceStmt) : Parser SourceStmt := do
  let _ ← expect .leftParen "'(' after 'if'"
  let condition ← expression
  let _ ← expect .rightParen "')' after if condition"
  let thenBranch ← statement
  let mut elseBranch := none
  if ← accept .else then
    elseBranch := some (← statement)
  return .if condition thenBranch elseBranch

/-- A `print` statement after its keyword. -/
def printStatement : Parser SourceStmt := do
  let value ← expression
  let _ ← expect .semicolon "';' after value"
  return .print value

/-- A `return` statement after its keyword. -/
def returnStatement (keyword : Token) : Parser SourceStmt := do
  let value ← expressionUnless .semicolon
  let _ ← expect .semicolon "';' after return value"
  return .return keyword value

/-- A `while` statement after its keyword. -/
def whileStatement (statement : Parser SourceStmt) : Parser SourceStmt := do
  let _ ← expect .leftParen "'(' after 'while'"
  let condition ← expression
  let _ ← expect .rightParen "')' after condition"
  let body ← statement
  return .while condition body

/-- The parsers for the statements and the declarations nested in a statement. -/
structure Nested where
  statement : Parser SourceStmt
  declaration : Parser (Option SourceStmt)

/-- A statement. -/
def statementWith (nested : Nested) : Parser SourceStmt := do
  match ← accept? [.for, .if, .print, .return, .while, .leftBrace] with
  | none => expressionStatement
  | some t =>
    match t.kind with
    | .for => forStatement nested.statement
    | .if => ifStatement nested.statement
    | .print => printStatement
    | .return => returnStatement t
    | .while => whileStatement nested.statement
    | _ => .block <$> block nested.declaration

/-- A declaration or a statement. -/
def declarationWith (nested : Nested) : Parser SourceStmt := do
  if ← accept .class then classDeclaration nested.declaration
  else if ← accept .fun then .function <$> function nested.declaration "function"
  else if ← accept .var then varDeclaration
  else statementWith nested

mutual

/-- A statement in which at most `n` statements are nested. -/
def nestedStatement : Nat → List Token → Reply SourceStmt
  | 0, ts => fail .exhausted ts
  | n + 1, ts => statementWith ⟨nestedStatement n, nestedDeclaration n⟩ ts

/-- A declaration in which at most `n` statements are nested, or none when it was broken. -/
def nestedDeclaration : Nat → List Token → Reply (Option SourceStmt)
  | 0, ts => fail .exhausted ts
  | n + 1, ts => orSynchronize (declarationWith ⟨nestedStatement n, nestedDeclaration n⟩) ts

end

/-- A declaration, or none when it was broken. Each nested statement stands behind a token of its own. -/
def declaration : Parser (Option SourceStmt) :=
  sized nestedDeclaration

/-- The declarations up to the end token. -/
def program : Parser (List SourceStmt) := do
  let body ← sized (whileM (return !(← atEnd)) declaration)
  return body.filterMap id

end Parser

/-- The statements of a program with what was wrong in it. -/
structure Parsed where
  program : List SourceStmt
  diagnostics : List Diagnostic

/-- Parses the tokens up to the first end token; there is no answer if there is none. -/
def parse (tokens : List Token) : Option Parsed :=
  match Parser.program tokens with
  | ⟨.ok program, _, diagnostics⟩ => some ⟨program, diagnostics⟩
  | ⟨.error _, _, _⟩ => none

end LoxLang
