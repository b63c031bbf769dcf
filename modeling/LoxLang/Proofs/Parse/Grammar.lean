import LoxLang.Parse.Program
import Mathlib.Tactic.Common

/-!
# The grammar of programs

The grammar as rules that derive a run of tokens together with its tree. `p.Derives d w` holds when the tokens
`w` are derived from the phrase `p`; the tree is part of the phrase. A dialect `d` says which restrictions of
the grammar are in force:

* **`Dialect.written`** — the grammar as it is written, with at most 255 arguments and parameters. It leaves
  open to which `if` an `else` belongs.
* **`Dialect.standard`** — besides, an `else` belongs to the nearest `if` that is still open.
* **`Dialect.relaxed`** — the written grammar without limits on the numbers of arguments and parameters, and
  with any disjunction to the left of an equals sign.
-/

namespace LoxLang

@[simp] theorem Reference.bare_name (t : Token) : (Reference.bare t).name = t := rfl

/-- The restrictions of the grammar that are in force. -/
structure Dialect where
  /-- Arguments and parameters without limit. -/
  unlimited : Bool
  /-- Any expression as the target of an assignment. -/
  anyTarget : Bool
  /-- An `else` only for the nearest open `if`. -/
  nearestElse : Bool

namespace Dialect

def written : Dialect := ⟨false, false, false⟩

def standard : Dialect := ⟨false, false, true⟩

def relaxed : Dialect := ⟨true, true, false⟩

/-- So many arguments or parameters are allowed. -/
def Fits (d : Dialect) (n : Nat) : Prop :=
  d.unlimited = true ∨ n ≤ 255

theorem Fits.mono {d : Dialect} {m n : Nat} (h : d.Fits n) (hle : m ≤ n) : d.Fits m :=
  h.imp_right (Nat.le_trans hle)

end Dialect

/-! ## Expressions

A phrase is what one of the rules for expressions derives; some are suffixes, which make an expression of the one before
them. -/

/-- The levels of operators that group to the left, loosest first. -/
inductive Rank where
  | disjunction | conjunction | equality | comparison | term | factor

/-- The levels of expressions, loosest first. -/
inductive Level where
  | assignment
  | joined (r : Rank)
  | unary | call | primary

namespace Rank

/-- The operators of a level. -/
def operators : Rank → List Kind
  | disjunction => [.or]
  | conjunction => [.and]
  | equality => [.bangEqual, .equalEqual]
  | comparison => [.greater, .greaterEqual, .less, .lessEqual]
  | term => [.minus, .plus]
  | factor => [.slash, .star]

/-- The level of the operands. -/
def operand : Rank → Level
  | disjunction => .joined .conjunction
  | conjunction => .joined .equality
  | equality => .joined .comparison
  | comparison => .joined .term
  | term => .joined .factor
  | factor => .unary

/-- The tree of two operands. -/
def node : Rank → SourceExpr → Token → SourceExpr → SourceExpr
  | disjunction | conjunction => .logical
  | _ => .binary

end Rank

/-- What the rules for expressions derive. -/
inductive Phrase where
  /-- An expression of a level. -/
  | expr (l : Level) (e : SourceExpr)
  /-- Operators, each with its right operand, that make `e` out of their left operand. -/
  | operations (r : Rank) (left e : SourceExpr)
  /-- Calls and property accesses that make `e` out of what they are applied to. -/
  | suffixes (target e : SourceExpr)
  /-- Expressions between commas, at least one. -/
  | arguments (es : List SourceExpr)
  /-- Expressions between commas, or nothing. -/
  | argumentList (es : List SourceExpr)

/-- The rules for expressions, one constructor for each alternative. -/
inductive Phrase.Derives (d : Dialect) : Phrase → List Token → Prop where
  | assign {name equals : Token} {value : SourceExpr} {w : List Token}
      (hname : name.kind = .identifier) (hequals : equals.kind = .equal)
      (hvalue : Derives d (.expr .assignment value) w) :
      Derives d (.expr .assignment (.assign (.bare name) value)) (name :: equals :: w)
  | set {object value : SourceExpr} {dot name equals : Token} {w₁ w₂ : List Token}
      (hobject : Derives d (.expr .call object) w₁) (hdot : dot.kind = .dot)
      (hname : name.kind = .identifier) (hequals : equals.kind = .equal)
      (hvalue : Derives d (.expr .assignment value) w₂) :
      Derives d (.expr .assignment (.set object name value)) (w₁ ++ dot :: name :: equals :: w₂)
  | misplaced {target value : SourceExpr} {equals : Token} {w₁ w₂ : List Token}
      (hany : d.anyTarget = true)
      (hvariable : ∀ r, target ≠ .variable r) (hget : ∀ o n, target ≠ .get o n)
      (htarget : Derives d (.expr (.joined .disjunction) target) w₁) (hequals : equals.kind = .equal)
      (hvalue : Derives d (.expr .assignment value) w₂) :
      Derives d (.expr .assignment target) (w₁ ++ equals :: w₂)
  | disjunction {e : SourceExpr} {w : List Token} (h : Derives d (.expr (.joined .disjunction) e) w) :
      Derives d (.expr .assignment e) w
  | joined {r : Rank} {left e : SourceExpr} {w₁ w₂ : List Token}
      (hleft : Derives d (.expr r.operand left) w₁) (hmore : Derives d (.operations r left e) w₂) :
      Derives d (.expr (.joined r) e) (w₁ ++ w₂)
  | noOperation {r : Rank} {e : SourceExpr} : Derives d (.operations r e e) []
  | operation {r : Rank} {left right e : SourceExpr} {operator : Token} {w₁ w₂ : List Token}
      (hoperator : operator.kind ∈ r.operators) (hright : Derives d (.expr r.operand right) w₁)
      (hmore : Derives d (.operations r (r.node left operator right) e) w₂) :
      Derives d (.operations r left e) (operator :: (w₁ ++ w₂))
  | unary {operator : Token} {e : SourceExpr} {w : List Token}
      (hoperator : operator.kind ∈ [Kind.bang, .minus]) (h : Derives d (.expr .unary e) w) :
      Derives d (.expr .unary (.unary operator e)) (operator :: w)
  | noUnary {e : SourceExpr} {w : List Token} (h : Derives d (.expr .call e) w) :
      Derives d (.expr .unary e) w
  | call {target e : SourceExpr} {w₁ w₂ : List Token}
      (htarget : Derives d (.expr .primary target) w₁) (hmore : Derives d (.suffixes target e) w₂) :
      Derives d (.expr .call e) (w₁ ++ w₂)
  | noSuffix {e : SourceExpr} : Derives d (.suffixes e e) []
  | arguments {callee e : SourceExpr} {args : List SourceExpr} {open' paren : Token} {w₁ w₂ : List Token}
      (hopen : open'.kind = .leftParen) (hargs : Derives d (.argumentList args) w₁)
      (hfits : d.Fits args.length) (hparen : paren.kind = .rightParen)
      (hmore : Derives d (.suffixes (.call callee paren args) e) w₂) :
      Derives d (.suffixes callee e) (open' :: (w₁ ++ paren :: w₂))
  | property {object e : SourceExpr} {dot name : Token} {w : List Token}
      (hdot : dot.kind = .dot) (hname : name.kind = .identifier)
      (hmore : Derives d (.suffixes (.get object name) e) w) :
      Derives d (.suffixes object e) (dot :: name :: w)
  | oneArgument {e : SourceExpr} {w : List Token} (h : Derives d (.expr .assignment e) w) :
      Derives d (.arguments [e]) w
  | moreArguments {e : SourceExpr} {es : List SourceExpr} {comma : Token} {w₁ w₂ : List Token}
      (h : Derives d (.expr .assignment e) w₁) (hcomma : comma.kind = .comma)
      (hmore : Derives d (.arguments es) w₂) :
      Derives d (.arguments (e :: es)) (w₁ ++ comma :: w₂)
  | noArguments : Derives d (.argumentList []) []
  | someArguments {es : List SourceExpr} {w : List Token} (h : Derives d (.arguments es) w) :
      Derives d (.argumentList es) w
  | literalFalse {t : Token} (ht : t.kind = .false) :
      Derives d (.expr .primary (.literal (.bool false))) [t]
  | literalTrue {t : Token} (ht : t.kind = .true) :
      Derives d (.expr .primary (.literal (.bool true))) [t]
  | literalNil {t : Token} (ht : t.kind = .nil) : Derives d (.expr .primary (.literal .nil)) [t]
  | literal {t : Token} (ht : t.kind = .number ∨ t.kind = .string) :
      Derives d (.expr .primary (.literal t.literal)) [t]
  | this {t : Token} (ht : t.kind = .this) : Derives d (.expr .primary (.this (.bare t))) [t]
  | identifier {t : Token} (ht : t.kind = .identifier) :
      Derives d (.expr .primary (.variable (.bare t))) [t]
  | grouping {open' paren : Token} {e : SourceExpr} {w : List Token} (hopen : open'.kind = .leftParen)
      (h : Derives d (.expr .assignment e) w) (hparen : paren.kind = .rightParen) :
      Derives d (.expr .primary (.grouping e)) (open' :: (w ++ [paren]))
  | super {keyword dot method : Token} (hkeyword : keyword.kind = .super) (hdot : dot.kind = .dot)
      (hmethod : method.kind = .identifier) :
      Derives d (.expr .primary (.super (.bare keyword) method)) [keyword, dot, method]

/-- An expression, which is an assignment at the loosest. -/
abbrev Expression (d : Dialect) (e : SourceExpr) (w : List Token) : Prop :=
  (Phrase.expr .assignment e).Derives d w

/-- An expression or nothing. -/
inductive OptionalExpression (d : Dialect) : Option SourceExpr → List Token → Prop where
  | none : OptionalExpression d none []
  | some {e : SourceExpr} {w : List Token} (h : Expression d e w) : OptionalExpression d (some e) w

/-! ## Statements and declarations

A clause is what one of the other rules derives. Each statement carries whether it ends with an `if` that could still
take an `else`. -/

/-- `"var" IDENTIFIER ( "=" expression )? ";"` -/
inductive VariableDeclaration (d : Dialect) : SourceStmt → List Token → Prop where
  | plain {var name semicolon : Token} (hvar : var.kind = .var) (hname : name.kind = .identifier)
      (hsemicolon : semicolon.kind = .semicolon) :
      VariableDeclaration d (.var name none) [var, name, semicolon]
  | initialized {var name equals semicolon : Token} {e : SourceExpr} {w : List Token}
      (hvar : var.kind = .var) (hname : name.kind = .identifier) (hequals : equals.kind = .equal)
      (he : Expression d e w) (hsemicolon : semicolon.kind = .semicolon) :
      VariableDeclaration d (.var name (some e)) (var :: name :: equals :: (w ++ [semicolon]))

/-- `expression ";"` -/
inductive ExpressionStatement (d : Dialect) : SourceStmt → List Token → Prop where
  | mk {e : SourceExpr} {semicolon : Token} {w : List Token} (he : Expression d e w)
      (hsemicolon : semicolon.kind = .semicolon) :
      ExpressionStatement d (.expression e) (w ++ [semicolon])

/-- `varDecl | exprStmt | ";"` -/
inductive LoopInitializer (d : Dialect) : Option SourceStmt → List Token → Prop where
  | none {semicolon : Token} (h : semicolon.kind = .semicolon) : LoopInitializer d none [semicolon]
  | var {s : SourceStmt} {w : List Token} (h : VariableDeclaration d s w) : LoopInitializer d (some s) w
  | expression {s : SourceStmt} {w : List Token} (h : ExpressionStatement d s w) :
      LoopInitializer d (some s) w

/-- The body of a loop with the increment behind it, if there is one. -/
def loopBody (body : SourceStmt) : Option SourceExpr → SourceStmt
  | some increment => .block [body, .expression increment]
  | none => body

/-- `IDENTIFIER ( "," IDENTIFIER )*` or nothing -/
inductive Parameters : List Token → List Token → Prop where
  | none : Parameters [] []
  | one {p : Token} (hp : p.kind = .identifier) : Parameters [p] [p]
  | more {p q comma : Token} {ps w : List Token} (hp : p.kind = .identifier) (hcomma : comma.kind = .comma)
      (hmore : Parameters (q :: ps) w) : Parameters (p :: q :: ps) (p :: comma :: w)

/-- `( "<" IDENTIFIER )?` -/
inductive Heritage : Option (Reference Unit) → List Token → Prop where
  | none : Heritage none []
  | some {less name : Token} (hless : less.kind = .less) (hname : name.kind = .identifier) :
      Heritage (some (.bare name)) [less, name]

/-- What the rules for statements derive. A statement is dangling if it ends with an `if` that has no `else`:
an `else` behind it would belong to that `if`. -/
inductive Clause where
  | declaration (s : SourceStmt) (dangling : Bool)
  | statement (s : SourceStmt) (dangling : Bool)
  | declarations (ss : List SourceStmt)
  | function (f : SourceFun)
  | functions (fs : List SourceFun)

/-- The rules for statements and declarations, one constructor for each alternative. -/
inductive Clause.Derives (d : Dialect) : Clause → List Token → Prop where
  | classDeclaration {keyword name open' close : Token} {heritage : Option (Reference Unit)}
      {methods : List SourceFun} {w₁ w₂ : List Token}
      (hkeyword : keyword.kind = .class) (hname : name.kind = .identifier) (hheritage : Heritage heritage w₁)
      (hopen : open'.kind = .leftBrace) (hmethods : Derives d (.functions methods) w₂)
      (hclose : close.kind = .rightBrace) :
      Derives d (.declaration (.class name heritage methods) false)
        (keyword :: name :: (w₁ ++ open' :: (w₂ ++ [close])))
  | functionDeclaration {keyword : Token} {f : SourceFun} {w : List Token} (hkeyword : keyword.kind = .fun)
      (hf : Derives d (.function f) w) : Derives d (.declaration (.function f) false) (keyword :: w)
  | variableDeclaration {s : SourceStmt} {w : List Token} (h : VariableDeclaration d s w) :
      Derives d (.declaration s false) w
  | statement {s : SourceStmt} {o : Bool} {w : List Token} (h : Derives d (.statement s o) w) :
      Derives d (.declaration s o) w
  | expression {s : SourceStmt} {w : List Token} (h : ExpressionStatement d s w) :
      Derives d (.statement s false) w
  | forLoop {keyword open' semicolon close : Token} {initializer : Option SourceStmt}
      {condition increment : Option SourceExpr} {body : SourceStmt} {o : Bool} {w₁ w₂ w₃ w₄ : List Token}
      (hkeyword : keyword.kind = .for) (hopen : open'.kind = .leftParen)
      (hinitializer : LoopInitializer d initializer w₁) (hcondition : OptionalExpression d condition w₂)
      (hsemicolon : semicolon.kind = .semicolon) (hincrement : OptionalExpression d increment w₃)
      (hclose : close.kind = .rightParen) (hbody : Derives d (.statement body o) w₄) :
      Derives d
        (.statement (.block (initializer.toList ++
          [.while (condition.getD (.literal (.bool true))) (loopBody body increment)])) o)
        (keyword :: open' :: (w₁ ++ (w₂ ++ semicolon :: (w₃ ++ close :: w₄))))
  | ifThen {keyword open' close : Token} {condition : SourceExpr} {thenBranch : SourceStmt} {o : Bool}
      {w₁ w₂ : List Token}
      (hkeyword : keyword.kind = .if) (hopen : open'.kind = .leftParen)
      (hcondition : Expression d condition w₁) (hclose : close.kind = .rightParen)
      (hthen : Derives d (.statement thenBranch o) w₂) :
      Derives d (.statement (.if condition thenBranch none) true)
        (keyword :: open' :: (w₁ ++ close :: w₂))
  | ifElse {keyword open' close else' : Token} {condition : SourceExpr} {thenBranch elseBranch : SourceStmt}
      {o₁ o₂ : Bool} {w₁ w₂ w₃ : List Token}
      (hkeyword : keyword.kind = .if) (hopen : open'.kind = .leftParen)
      (hcondition : Expression d condition w₁) (hclose : close.kind = .rightParen)
      (hthen : Derives d (.statement thenBranch o₁) w₂)
      (hnearest : d.nearestElse = true → o₁ = false) (helse : else'.kind = .else)
      (helseBranch : Derives d (.statement elseBranch o₂) w₃) :
      Derives d (.statement (.if condition thenBranch (some elseBranch)) o₂)
        (keyword :: open' :: (w₁ ++ close :: (w₂ ++ else' :: w₃)))
  | printing {keyword semicolon : Token} {e : SourceExpr} {w : List Token} (hkeyword : keyword.kind = .print)
      (he : Expression d e w) (hsemicolon : semicolon.kind = .semicolon) :
      Derives d (.statement (.print e) false) (keyword :: (w ++ [semicolon]))
  | returning {keyword semicolon : Token} {value : Option SourceExpr} {w : List Token}
      (hkeyword : keyword.kind = .return) (hvalue : OptionalExpression d value w)
      (hsemicolon : semicolon.kind = .semicolon) :
      Derives d (.statement (.return keyword value) false) (keyword :: (w ++ [semicolon]))
  | whileLoop {keyword open' close : Token} {condition : SourceExpr} {body : SourceStmt} {o : Bool}
      {w₁ w₂ : List Token}
      (hkeyword : keyword.kind = .while) (hopen : open'.kind = .leftParen)
      (hcondition : Expression d condition w₁) (hclose : close.kind = .rightParen)
      (hbody : Derives d (.statement body o) w₂) :
      Derives d (.statement (.while condition body) o) (keyword :: open' :: (w₁ ++ close :: w₂))
  | block {open' close : Token} {ss : List SourceStmt} {w : List Token} (hopen : open'.kind = .leftBrace)
      (hss : Derives d (.declarations ss) w) (hclose : close.kind = .rightBrace) :
      Derives d (.statement (.block ss) false) (open' :: (w ++ [close]))
  | noDeclaration : Derives d (.declarations []) []
  | moreDeclarations {s : SourceStmt} {o : Bool} {ss : List SourceStmt} {w₁ w₂ : List Token}
      (hs : Derives d (.declaration s o) w₁) (hss : Derives d (.declarations ss) w₂) :
      Derives d (.declarations (s :: ss)) (w₁ ++ w₂)
  | function {name open' close open'' close' : Token} {params : List Token} {body : List SourceStmt}
      {w₁ w₂ : List Token}
      (hname : name.kind = .identifier) (hopen : open'.kind = .leftParen) (hparams : Parameters params w₁)
      (hfits : d.Fits params.length) (hclose : close.kind = .rightParen) (hopen' : open''.kind = .leftBrace)
      (hbody : Derives d (.declarations body) w₂) (hclose' : close'.kind = .rightBrace) :
      Derives d (.function ⟨name, params, body⟩)
        (name :: open' :: (w₁ ++ close :: open'' :: (w₂ ++ [close'])))
  | noFunction : Derives d (.functions []) []
  | moreFunctions {f : SourceFun} {fs : List SourceFun} {w₁ w₂ : List Token}
      (hf : Derives d (.function f) w₁) (hfs : Derives d (.functions fs) w₂) :
      Derives d (.functions (f :: fs)) (w₁ ++ w₂)

/-- A whole program, without the end token. -/
abbrev Program (d : Dialect) (ss : List SourceStmt) (w : List Token) : Prop :=
  (Clause.declarations ss).Derives d w

end LoxLang
