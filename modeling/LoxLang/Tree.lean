import LoxLang.Token

/-!
# Program trees

Expressions, statements and function declarations. Each use of a local name is a `Reference` that carries a
note of type `ρ`: nothing when the tree comes from the parser, the distance to the declaring scope when it has
been resolved.
-/

namespace LoxLang

/-- A use of a name, with what is known about the place of its declaration. -/
structure Reference (ρ : Type) where
  name : Token
  note : ρ
deriving Inhabited

/-- Expressions. `unknown` is a node of no known form. -/
inductive Expr (ρ : Type) where
  | assign (target : Reference ρ) (value : Expr ρ)
  | binary (left : Expr ρ) (operator : Token) (right : Expr ρ)
  | call (callee : Expr ρ) (paren : Token) (arguments : List (Expr ρ))
  | get (object : Expr ρ) (name : Token)
  | grouping (inner : Expr ρ)
  | literal (value : Literal)
  | logical (left : Expr ρ) (operator : Token) (right : Expr ρ)
  | set (object : Expr ρ) (name : Token) (value : Expr ρ)
  | super (keyword : Reference ρ) (method : Token)
  | this (keyword : Reference ρ)
  | unary (operator : Token) (right : Expr ρ)
  | variable (reference : Reference ρ)
  | unknown
deriving Inhabited

mutual

/-- Statements. `unknown` is a node of no known form. -/
inductive Stmt (ρ : Type) where
  | block (body : List (Stmt ρ))
  | expression (value : Expr ρ)
  | function (declaration : FunDecl ρ)
  | class (name : Token) (superclass : Option (Reference ρ)) (methods : List (FunDecl ρ))
  | if (condition : Expr ρ) (thenBranch : Stmt ρ) (elseBranch : Option (Stmt ρ))
  | print (value : Expr ρ)
  | return (keyword : Token) (value : Option (Expr ρ))
  | var (name : Token) (initializer : Option (Expr ρ))
  | while (condition : Expr ρ) (body : Stmt ρ)
  | unknown

/-- A named function with its parameters and its body. -/
structure FunDecl (ρ : Type) where
  name : Token
  params : List Token
  body : List (Stmt ρ)

end

instance {ρ : Type} : Inhabited (Stmt ρ) := ⟨.unknown⟩

instance {ρ : Type} : Inhabited (FunDecl ρ) := ⟨⟨default, [], []⟩⟩

/-! ### Names of forms

These names occur where a tree is shown and where a node is complained about. -/

/-- The name of the form of an expression. -/
def Expr.form {ρ : Type} : Expr ρ → String
  | .assign .. => "Assign"
  | .binary .. => "Binary"
  | .call .. => "Call"
  | .get .. => "Get"
  | .grouping .. => "Grouping"
  | .literal .. => "Literal"
  | .logical .. => "Logical"
  | .set .. => "Set"
  | .super .. => "Super"
  | .this .. => "This"
  | .unary .. => "Unary"
  | .variable .. => "Variable"
  | .unknown => "Expr"

/-- The name of the form of a statement. -/
def Stmt.form {ρ : Type} : Stmt ρ → String
  | .block .. => "Block"
  | .expression .. => "ExpressionStmt"
  | .function .. => "FunDecl"
  | .class .. => "ClassDecl"
  | .if .. => "If"
  | .print .. => "Print"
  | .return .. => "Return"
  | .var .. => "VarDecl"
  | .while .. => "While"
  | .unknown => "Stmt"

/-! ### Notes

Nothing but the notes is changed, so that trees with other notes have the same shape. -/

/-- An expression with every note changed. -/
def Expr.mapNotes {ρ σ : Type} (f : ρ → σ) : Expr ρ → Expr σ
  | .assign target value => .assign ⟨target.name, f target.note⟩ (value.mapNotes f)
  | .binary left operator right => .binary (left.mapNotes f) operator (right.mapNotes f)
  | .call callee paren arguments => .call (callee.mapNotes f) paren (mapAll arguments)
  | .get object name => .get (object.mapNotes f) name
  | .grouping inner => .grouping (inner.mapNotes f)
  | .literal value => .literal value
  | .logical left operator right => .logical (left.mapNotes f) operator (right.mapNotes f)
  | .set object name value => .set (object.mapNotes f) name (value.mapNotes f)
  | .super keyword method => .super ⟨keyword.name, f keyword.note⟩ method
  | .this keyword => .this ⟨keyword.name, f keyword.note⟩
  | .unary operator right => .unary operator (right.mapNotes f)
  | .variable reference => .variable ⟨reference.name, f reference.note⟩
  | .unknown => .unknown
where
  mapAll : List (Expr ρ) → List (Expr σ)
    | [] => []
    | e :: es => e.mapNotes f :: mapAll es

mutual

/-- A statement with every note changed. -/
def Stmt.mapNotes {ρ σ : Type} (f : ρ → σ) : Stmt ρ → Stmt σ
  | .block body => .block (Stmt.mapAllNotes f body)
  | .expression value => .expression (value.mapNotes f)
  | .function declaration => .function (declaration.mapNotes f)
  | .class name superclass methods =>
    .class name (superclass.map fun r => ⟨r.name, f r.note⟩) (FunDecl.mapAllNotes f methods)
  | .if condition thenBranch elseBranch =>
    .if (condition.mapNotes f) (thenBranch.mapNotes f)
      (match elseBranch with
        | some s => some (s.mapNotes f)
        | none => none)
  | .print value => .print (value.mapNotes f)
  | .return keyword value => .return keyword (value.map (·.mapNotes f))
  | .var name initializer => .var name (initializer.map (·.mapNotes f))
  | .while condition body => .while (condition.mapNotes f) (body.mapNotes f)
  | .unknown => .unknown

/-- Statements with every note changed. -/
def Stmt.mapAllNotes {ρ σ : Type} (f : ρ → σ) : List (Stmt ρ) → List (Stmt σ)
  | [] => []
  | s :: ss => s.mapNotes f :: Stmt.mapAllNotes f ss

/-- A function with every note changed. -/
def FunDecl.mapNotes {ρ σ : Type} (f : ρ → σ) : FunDecl ρ → FunDecl σ
  | ⟨name, params, body⟩ => ⟨name, params, Stmt.mapAllNotes f body⟩

/-- Functions with every note changed. -/
def FunDecl.mapAllNotes {ρ σ : Type} (f : ρ → σ) : List (FunDecl ρ) → List (FunDecl σ)
  | [] => []
  | d :: ds => d.mapNotes f :: FunDecl.mapAllNotes f ds

end

/-! ### Whole trees

A node can be looked at, resolved and run without a program around it. -/

/-- A node: an expression or a statement. -/
inductive Node (ρ : Type) where
  | expr (e : Expr ρ)
  | stmt (s : Stmt ρ)
deriving Inhabited

end LoxLang
