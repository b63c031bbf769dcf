import LoxLang.Tree

/-!
# Levels of trees

How many levels a tree has down to its last details. A text or a number has one level; a list, a token or a node has
one more than the deepest of its parts. What is missing counts as a part, and so does the tag of a node.
-/

namespace LoxLang

namespace Levels

/-- The levels of a text, a number, a truth value, or of what is missing. -/
def leaf : Nat := 1

/-- The levels of what has parts with so many levels. -/
def above (parts : List Nat) : Nat :=
  parts.foldl max 0 + 1

/-- The levels of a token. Its deepest part is the kind, which has a name. -/
def token : Nat := above [above [leaf]]

/-- The levels of a node with a tag and with parts that have so many levels. -/
def node (parts : List Nat) : Nat :=
  above (leaf :: parts)

end Levels

variable {ρ : Type}

/-- The levels of an expression. -/
def Expr.levels : Expr ρ → Nat
  | .assign _ value => Levels.node [Levels.token, value.levels]
  | .binary left _ right => Levels.node [left.levels, Levels.token, right.levels]
  | .call callee _ arguments => Levels.node [callee.levels, Levels.token, Levels.above (all arguments)]
  | .get object _ => Levels.node [object.levels, Levels.token]
  | .grouping inner => Levels.node [inner.levels]
  | .literal _ => Levels.node [Levels.leaf]
  | .logical left _ right => Levels.node [left.levels, Levels.token, right.levels]
  | .set object _ value => Levels.node [object.levels, Levels.token, value.levels]
  | .super _ _ => Levels.node [Levels.token, Levels.token]
  | .this _ => Levels.node [Levels.token]
  | .unary _ right => Levels.node [Levels.token, right.levels]
  | .variable _ => Levels.node [Levels.token]
  | .unknown => Levels.node []
where
  all : List (Expr ρ) → List Nat
    | [] => []
    | e :: es => e.levels :: all es

mutual

/-- The levels of a statement. -/
def Stmt.levels : Stmt ρ → Nat
  | .block body => Levels.node [Levels.above (Stmt.allLevels body)]
  | .expression value => Levels.node [value.levels]
  | .function declaration => declaration.levels
  | .class _ superclass methods =>
    Levels.node [Levels.token, superclass.elim Levels.leaf fun r => (Expr.variable r).levels,
      Levels.above (FunDecl.allLevels methods)]
  | .if condition thenBranch elseBranch =>
    Levels.node [condition.levels, thenBranch.levels,
      match elseBranch with
      | some s => s.levels
      | none => Levels.leaf]
  | .print value => Levels.node [value.levels]
  | .return _ value => Levels.node [Levels.token, value.elim Levels.leaf (·.levels)]
  | .var _ initializer => Levels.node [Levels.token, initializer.elim Levels.leaf (·.levels)]
  | .while condition body => Levels.node [condition.levels, body.levels]
  | .unknown => Levels.node []

/-- The levels of each statement. -/
def Stmt.allLevels : List (Stmt ρ) → List Nat
  | [] => []
  | s :: ss => s.levels :: Stmt.allLevels ss

/-- The levels of a function. -/
def FunDecl.levels : FunDecl ρ → Nat
  | ⟨_, params, body⟩ =>
    Levels.node [Levels.token, Levels.above (params.map fun _ => Levels.token),
      Levels.above (Stmt.allLevels body)]

/-- The levels of each function. -/
def FunDecl.allLevels : List (FunDecl ρ) → List Nat
  | [] => []
  | d :: ds => d.levels :: FunDecl.allLevels ds

end

end LoxLang
