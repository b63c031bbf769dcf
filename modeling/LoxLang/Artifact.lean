import LoxLang.Json
import LoxLang.Scope.Table
import LoxLang.Tree.Levels

/-!
# Artifacts

The documents that show tokens, trees and distance tables. Each token and each node becomes an object with its
fields in order, `kind` first.
-/

namespace LoxLang

/-- Numbers without a decimal numeral have no place in an artifact. -/
def Literal.toJson : Literal → Json
  | .nil => .null
  | .bool b => .bool b
  | .number x => if x.isFinite then .number x else .null
  | .string s => .string s

/-- A token. -/
def Token.toJson (t : Token) : Json :=
  .object [("kind", .string t.kind.name), ("lexeme", .string t.lexeme), ("literal", t.literal.toJson),
    ("line", .integer t.line)]

/-- A node with its tag and its fields. -/
def Json.node (tag : String) (fields : List (String × Json)) : Json :=
  .object (("kind", .string tag) :: fields)

variable {ρ : Type}

/-- The use of a variable. -/
def Reference.toJson (r : Reference ρ) : Json :=
  .node "variable" [("name", r.name.toJson)]

/-- An expression. -/
def Expr.toJson : Expr ρ → Json
  | .assign target value => .node "assign" [("name", target.name.toJson), ("value", value.toJson)]
  | .binary left operator right =>
    .node "binary" [("left", left.toJson), ("operator", operator.toJson), ("right", right.toJson)]
  | .call callee paren arguments =>
    .node "call" [("callee", callee.toJson), ("paren", paren.toJson), ("arguments", .array (all arguments))]
  | .get object name => .node "get" [("object", object.toJson), ("name", name.toJson)]
  | .grouping inner => .node "grouping" [("expression", inner.toJson)]
  | .literal value => .node "literal" [("value", value.toJson)]
  | .logical left operator right =>
    .node "logical" [("left", left.toJson), ("operator", operator.toJson), ("right", right.toJson)]
  | .set object name value =>
    .node "set" [("object", object.toJson), ("name", name.toJson), ("value", value.toJson)]
  | .super keyword method => .node "super" [("keyword", keyword.name.toJson), ("method", method.toJson)]
  | .this keyword => .node "this" [("keyword", keyword.name.toJson)]
  | .unary operator right => .node "unary" [("operator", operator.toJson), ("right", right.toJson)]
  | .variable reference => reference.toJson
  | .unknown => .object []
where
  all : List (Expr ρ) → List Json
    | [] => []
    | e :: es => e.toJson :: all es

/-- What may be missing is null. -/
def Json.optional : Option Json → Json
  | some j => j
  | none => .null

mutual

/-- A statement. -/
def Stmt.toJson : Stmt ρ → Json
  | .block body => .node "block" [("statements", .array (Stmt.allToJson body))]
  | .expression value => .node "expression" [("expression", value.toJson)]
  | .function declaration => declaration.toJson
  | .class name superclass methods =>
    .node "class" [("name", name.toJson), ("superclass", .optional (superclass.map (·.toJson))),
      ("methods", .array (FunDecl.allToJson methods))]
  | .if condition thenBranch elseBranch =>
    .node "if" [("condition", condition.toJson), ("then_branch", thenBranch.toJson),
      ("else_branch", match elseBranch with
        | some s => s.toJson
        | none => .null)]
  | .print value => .node "print" [("expression", value.toJson)]
  | .return keyword value =>
    .node "return" [("keyword", keyword.toJson), ("value", .optional (value.map (·.toJson)))]
  | .var name initializer =>
    .node "var" [("name", name.toJson), ("initializer", .optional (initializer.map (·.toJson)))]
  | .while condition body => .node "while" [("condition", condition.toJson), ("body", body.toJson)]
  | .unknown => .object []

/-- Statements. -/
def Stmt.allToJson : List (Stmt ρ) → List Json
  | [] => []
  | s :: ss => s.toJson :: Stmt.allToJson ss

/-- A function. -/
def FunDecl.toJson : FunDecl ρ → Json
  | ⟨name, params, body⟩ =>
    .node "function" [("name", name.toJson), ("params", .array (params.map (·.toJson))),
      ("body", .array (Stmt.allToJson body))]

/-- Functions. -/
def FunDecl.allToJson : List (FunDecl ρ) → List Json
  | [] => []
  | d :: ds => d.toJson :: FunDecl.allToJson ds

end

/-- An entry of a distance table. -/
def Entry.toJson (e : Entry) : Json :=
  .object [("name", .string e.name), ("line", .integer e.line), ("kind", .string e.kind.name),
    ("depth", .integer e.depth)]

/-! ### Whole artifacts

Artifacts are lists. A statement that is nested too deeply is an obstacle in the place of its item. -/

/-- The tokens of a text. -/
def tokensArtifact (tokens : List Token) : Json :=
  .array (tokens.map (·.toJson))

/-- The most levels that a statement may have to be shown. -/
def mostLevels : Nat := 255

/-- Whether a statement has too many levels to be shown. -/
def Stmt.isTooDeep (s : Stmt ρ) : Bool :=
  mostLevels < s.levels

/-- A statement as an item of an artifact. -/
def Stmt.item (s : Stmt ρ) : Json :=
  if s.isTooDeep then .unwritable .tooDeep else s.toJson

/-- The statements of a program. -/
def treeArtifact (program : List (Stmt ρ)) : Json :=
  .array (program.map (·.item))

/-- What keeps the statements of a program from being shown. -/
def treeObstacle? (program : List (Stmt ρ)) : Option Obstacle :=
  if program.any (·.isTooDeep) then some .tooDeep else none

/-- A distance table, in the order of the lines. -/
def tableArtifact (table : List Entry) : Json :=
  .array ((describe table).map (·.toJson))

end LoxLang
