/-!
# Faults

A fault is a breach of what the stages take for granted of one another: a node of no known form, a name that
is not where it was resolved to. It is never reported as a diagnostic.
-/

namespace LoxLang

/-- The two families of nodes. -/
inductive Family where
  | expression | statement
deriving DecidableEq, Inhabited

/-- What was taken for granted in vain. -/
inductive Fault where
  /-- An activity met a node of no known form. -/
  | noRule (activity : String) (family : Family)
  | unknownUnary (lexeme : String)
  | unknownBinary (lexeme : String)
  /-- A node that is no reference stands in the distance table. -/
  | notReference (form : String)
  /-- A name is not bound where it must be. -/
  | unbound
  /-- A frame does not exist, or a value is not of the sort that is asked for. -/
  | absent
deriving DecidableEq, Inhabited

namespace Fault

/-- What is said about a fault, if anything. -/
def message? : Fault → Option String
  | noRule activity .expression => some (activity ++ " has no rule for expression 'Expr'.")
  | noRule activity .statement => some (activity ++ " has no rule for statement 'Stmt'.")
  | unknownUnary lexeme => some ("Unknown unary operator '" ++ lexeme ++ "'.")
  | unknownBinary lexeme => some ("Unknown binary operator '" ++ lexeme ++ "'.")
  | notReference form => some ("'" ++ form ++ "' is not a resolvable reference.")
  | unbound => none
  | absent => none

end Fault

end LoxLang
