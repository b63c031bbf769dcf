import LoxLang.Parse.Reply
import LoxLang.Tree

/-!
# Parsing expressions

One parser for each level of precedence, from primary expressions to assignments. `self` stands for whole
expressions, which occur in parentheses, in arguments and to the right of an assignment; it is tied to itself
in `expression`.
-/

namespace LoxLang

/-- An expression as it is written: nothing is known of its names. -/
abbrev SourceExpr := Expr Unit

/-- A statement as it is written. -/
abbrev SourceStmt := Stmt Unit

/-- A function as it is written. -/
abbrev SourceFun := FunDecl Unit

/-- A reference about which nothing is known. -/
def Reference.bare (name : Token) : Reference Unit :=
  ⟨name, ()⟩

namespace Parser

/-! ### Primary expressions and calls

The token in front decides which rule applies. -/

/-- Literals, names, `this`, `super.method` and parentheses. -/
def primary (self : Parser SourceExpr) : Parser SourceExpr := do
  let t ← peek
  match t.kind with
  | .false => take (.literal (.bool false))
  | .true => take (.literal (.bool true))
  | .nil => take (.literal .nil)
  | .number | .string => take (.literal t.literal)
  | .this => take (.this (.bare t))
  | .identifier => take (.variable (.bare t))
  | .super => do
    -- the kind is known, so that nothing can be missing here
    let keyword ← expect .super ""
    let _ ← expect .dot "'.' after 'super'"
    let method ← expect .identifier "superclass method name"
    return .super (.bare keyword) method
  | .leftParen => do
    let _ ← expect .leftParen ""
    let inner ← self
    let _ ← expect .rightParen "')' after expression"
    return .grouping inner
  | _ => reject .expectExpression
where
  /-- The token in front is the whole expression. -/
  take (e : SourceExpr) : Parser SourceExpr := fun ts => ⟨.ok e, ts.drop 1, []⟩

/-- Calls and property accesses after an expression, from left to right. -/
def callTail (self : Parser SourceExpr) : Nat → SourceExpr → Parser SourceExpr
  | 0, _ => fail .exhausted
  | n + 1, e => do
    if ← accept .leftParen then
      let arguments ← untilParen (.tooManyArguments (toString maxArguments)) self
      let paren ← expect .rightParen "')' after arguments"
      callTail self n (.call e paren arguments)
    else if ← accept .dot then
      let name ← expect .identifier "property name after '.'"
      callTail self n (.get e name)
    else
      return e

/-- A primary expression with its calls and property accesses. -/
def call (self : Parser SourceExpr) : Parser SourceExpr := do
  let e ← primary self
  sized fun n => callTail self n e

/-! ### Operators

Each level reads operands of the next one. Binary operators group to the left, in a loop; prefix operators and
assignments to the right. -/

/-- The operators `!` and `-` in front of an operand, outermost first. -/
def unaryOperators : Nat → Parser (List Token)
  | 0 => fail .exhausted
  | n + 1 => do
    match ← accept? [.bang, .minus] with
    | some operator => return operator :: (← unaryOperators n)
    | none => return []

/-- An operand with the operators in front of it. -/
def unary (self : Parser SourceExpr) : Parser SourceExpr := do
  let operators ← sized unaryOperators
  let operand ← call self
  return operators.foldr .unary operand

/-- The operators and operands that follow a left operand; they group to the left. -/
def operatorTail (kinds : List Kind) (build : SourceExpr → Token → SourceExpr → SourceExpr)
    (operand : Parser SourceExpr) : Nat → SourceExpr → Parser SourceExpr
  | 0, _ => fail .exhausted
  | n + 1, left => do
    match ← accept? kinds with
    | some operator =>
      let right ← operand
      operatorTail kinds build operand n (build left operator right)
    | none => return left

/-- Operands joined by operators of one level. -/
def leftAssociative (kinds : List Kind) (build : SourceExpr → Token → SourceExpr → SourceExpr)
    (operand : Parser SourceExpr) : Parser SourceExpr := do
  let left ← operand
  sized fun n => operatorTail kinds build operand n left

/-- Products. -/
def factor (self : Parser SourceExpr) : Parser SourceExpr :=
  leftAssociative [.slash, .star] .binary (unary self)

/-- Sums. -/
def term (self : Parser SourceExpr) : Parser SourceExpr :=
  leftAssociative [.minus, .plus] .binary (factor self)

/-- Order comparisons. -/
def comparison (self : Parser SourceExpr) : Parser SourceExpr :=
  leftAssociative [.greater, .greaterEqual, .less, .lessEqual] .binary (term self)

/-- Equality comparisons. -/
def equality (self : Parser SourceExpr) : Parser SourceExpr :=
  leftAssociative [.bangEqual, .equalEqual] .binary (comparison self)

/-- Conjunctions. -/
def conjunction (self : Parser SourceExpr) : Parser SourceExpr :=
  leftAssociative [.and] .logical (equality self)

/-- Disjunctions. -/
def disjunction (self : Parser SourceExpr) : Parser SourceExpr :=
  leftAssociative [.or] .logical (conjunction self)

/-- Assignments. The left side is read as an expression and must turn out to be a variable or a property; any
other is reported at the equals sign and stands for the whole. -/
def assignment (self : Parser SourceExpr) : Parser SourceExpr := do
  let target ← disjunction self
  match ← accept? [.equal] with
  | none => return target
  | some equals =>
    let value ← self
    match target with
    | .variable reference => return .assign reference value
    | .get object name => return .set object name value
    | _ =>
      reportOn equals .invalidAssignmentTarget
      return target

/-! ### Whole expressions

The knot is tied by a bound on the nesting. -/

/-- An expression in which at most `n` expressions are nested. -/
def nestedExpression : Nat → Parser SourceExpr
  | 0, ts => fail .exhausted ts
  | n + 1, ts => assignment (nestedExpression n) ts

/-- An expression. Each nested expression stands behind a token of its own. -/
def expression : Parser SourceExpr :=
  sized nestedExpression

end Parser

end LoxLang
