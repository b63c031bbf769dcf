import LoxLang.Proofs.Parse.Replies

/-!
# The clauses of `for` statements

There is no tree for a `for` statement: the parser reads its clauses and makes a block with a `while` loop out of them.
What the parser has read is kept here as a `ForLoop`, so that statements about the tree can name the clauses.

* **`Parser.forClauses`** — reads the clauses behind the keyword.
* **`Parser.forStatement_eq`** — the parser's tree is `ForLoop.block` of the clauses that it reads.
* **`ForLoop.Written`** — the clauses as the grammar writes them; **`ForLoop.Written.derives`** — the tree that the
  grammar gives to them is the same block.
-/

namespace LoxLang

variable {ρ : Type}

/-! ## Loops and their trees

`block` is how the language defines the statement. The tree holds each clause that there is once, in its place: the
initializer before the loop, the condition at its head, the body and then the increment in it. -/

/-- The clauses of a `for` statement. -/
structure ForLoop (ρ : Type) where
  initializer : Option (Stmt ρ)
  condition : Option (Expr ρ)
  increment : Option (Expr ρ)
  body : Stmt ρ

namespace ForLoop

/-- The body, and the increment behind it. -/
def round (loop : ForLoop ρ) : Stmt ρ :=
  match loop.increment with
  | some e => .block [loop.body, .expression e]
  | none => loop.body

/-- All rounds. A missing condition always holds. -/
def rounds (loop : ForLoop ρ) : Stmt ρ :=
  .while (loop.condition.getD (.literal (.bool true))) loop.round

/-- The tree that the statement stands for. -/
def block (loop : ForLoop ρ) : Stmt ρ :=
  .block (loop.initializer.toList ++ [loop.rounds])

/-- The tree is the one that the rules of the grammar write down. -/
theorem block_eq (loop : ForLoop Unit) :
    loop.block = .block (loop.initializer.toList ++
      [.while (loop.condition.getD (.literal (.bool true))) (loopBody loop.body loop.increment)]) := by
  obtain ⟨initializer, condition, increment, body⟩ := loop
  cases increment <;> rfl

end ForLoop

/-! ## The clauses that the parser reads

`forClauses` is the first part of `Parser.forStatement`, which ends by building the tree. -/

namespace Parser

/-- The clauses of a `for` statement after its keyword. -/
def forClauses (statement : Parser SourceStmt) : Parser (ForLoop Unit) := do
  let _ ← expect .leftParen "'(' after 'for'"
  let initializer ← loopInitializer
  let condition ← expressionUnless .semicolon
  let _ ← expect .semicolon "';' after loop condition"
  let increment ← expressionUnless .rightParen
  let _ ← expect .rightParen "')' after for clauses"
  let body ← statement
  return ⟨initializer, condition, increment, body⟩

/-- The parser puts the tree together from the clauses. -/
theorem forBlock_eq_block (initializer : Option SourceStmt) (condition increment : Option SourceExpr)
    (body : SourceStmt) :
    forBlock initializer condition increment body
      = (ForLoop.mk initializer condition increment body).block := by
  cases increment <;> rfl

/-- A `for` statement is read clause by clause, and its tree is the block of the clauses. This holds for all tokens, also
where the clauses are broken and nothing is read. -/
theorem forStatement_eq (statement : Parser SourceStmt) :
    forStatement statement = ForLoop.block <$> forClauses statement := by
  unfold forStatement forClauses
  simp only [forBlock_eq_block, map_bind, map_pure]

end Parser

/-! ## The clauses that the grammar writes

The tokens of each clause are derived on their own, and what lies between them is a token of the statement. -/

/-- `"(" ( varDecl | exprStmt | ";" ) expression? ";" expression? ")" statement`, the tokens behind the keyword. -/
inductive ForLoop.Written (d : Dialect) : ForLoop Unit → Bool → List Token → Prop where
  | mk {open' semicolon close : Token} {initializer : Option SourceStmt} {condition increment : Option SourceExpr}
      {body : SourceStmt} {dangling : Bool} {w₁ w₂ w₃ w₄ : List Token}
      (hopen : open'.kind = .leftParen) (hinitializer : LoopInitializer d initializer w₁)
      (hcondition : OptionalExpression d condition w₂) (hsemicolon : semicolon.kind = .semicolon)
      (hincrement : OptionalExpression d increment w₃) (hclose : close.kind = .rightParen)
      (hbody : (Clause.statement body dangling).Derives d w₄) :
      Written d ⟨initializer, condition, increment, body⟩ dangling
        (open' :: (w₁ ++ (w₂ ++ semicolon :: (w₃ ++ close :: w₄))))

/-- Behind the keyword, clauses that are written make a statement whose tree is their block. -/
theorem ForLoop.Written.derives {d : Dialect} {loop : ForLoop Unit} {dangling : Bool} {w : List Token} {keyword : Token}
    (h : loop.Written d dangling w) (hkeyword : keyword.kind = .for) :
    (Clause.statement loop.block dangling).Derives d (keyword :: w) := by
  cases h with
  | mk hopen hinitializer hcondition hsemicolon hincrement hclose hbody =>
    rw [block_eq]
    exact .forLoop hkeyword hopen hinitializer hcondition hsemicolon hincrement hclose hbody

end LoxLang
