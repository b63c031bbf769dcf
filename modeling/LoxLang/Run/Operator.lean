import LoxLang.Run.Machine

/-!
# Operators

What unary and binary operators make of their operands. Arithmetic is that of IEEE doubles, so division by zero
gives an infinity or NaN.
-/

namespace LoxLang

namespace Eval

/-- The result of a unary operator. -/
def unary (operator : Token) (right : Value) : Eval Value :=
  match operator.kind with
  | .bang => return .bool !right.isTruthy
  | .minus =>
    match right with
    | .number x => return .number (-x)
    | _ => fail .operandMustBeNumber operator
  | _ => throw (.fault (.unknownUnary operator.lexeme))

/-- The sum of two numbers, or two strings joined. -/
def add (operator : Token) : Value → Value → Eval Value
  | .number x, .number y => return .number (x + y)
  | .string s, .string t => return .string (s ++ t)
  | _, _ => fail .operandsMustBeNumbersOrStrings operator

/-- The result of an operator that takes only numbers. Any other operator is a fault. -/
def arithmetic (operator : Token) (x y : Float) : Eval Value :=
  match operator.kind with
  | .greater => return .bool (y < x)
  | .greaterEqual => return .bool (y ≤ x)
  | .less => return .bool (x < y)
  | .lessEqual => return .bool (x ≤ y)
  | .minus => return .number (x - y)
  | .star => return .number (x * y)
  | .slash => return .number (x / y)
  | _ => throw (.fault (.unknownBinary operator.lexeme))

/-- The result of a binary operator. Operands are checked before the operator is found unknown. -/
def binary (operator : Token) (left right : Value) : Eval Value :=
  match operator.kind with
  | .bangEqual => return .bool !(left.equals right)
  | .equalEqual => return .bool (left.equals right)
  | .plus => add operator left right
  | _ =>
    match left, right with
    | .number x, .number y => arithmetic operator x y
    | _, _ => fail .operandsMustBeNumbers operator

end Eval

end LoxLang
