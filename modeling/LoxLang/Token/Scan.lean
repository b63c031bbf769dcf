import LoxLang.Diagnostic
import LoxLang.Token.Cut

/-!
# Tokens of a text

The tokens and the diagnostics of a text are read off its cut. Each stands on the line at the end of its
piece.
-/

namespace LoxLang

/-! ### Literals

A literal is read off the lexeme, so that nothing else of the text matters for it. -/

/-- The number that a run of digits denotes in base ten. -/
def decimalValue (digits : List Char) : Nat :=
  digits.foldl (fun n c => 10 * n + (c.toNat - '0'.toNat)) 0

/-- The double nearest to the number that a lexeme denotes. -/
def numberValue (lexeme : List Char) : Float :=
  let whole := lexeme.takeWhile Char.isDigit
  let fraction := (lexeme.dropWhile Char.isDigit).drop 1
  Float.ofScientific (decimalValue (whole ++ fraction)) true fraction.length

/-- The literal of a lexeme: a string's text without its quotes, a number's value. -/
def Literal.ofLexeme (kind : Kind) (lexeme : List Char) : Literal :=
  match kind with
  | .number => .number (numberValue lexeme)
  | .string => .string (String.ofList (lexeme.drop 1).dropLast)
  | _ => .nil

/-! ### Reading the cut

Strings may go over several lines; their tokens stand on the last one. -/

/-- The token of a piece that ends on the given line. -/
def Piece.token? (line : Nat) : Piece → Option Token
  | token kind lexeme => some ⟨kind, String.ofList lexeme, .ofLexeme kind lexeme, line⟩
  | _ => none

/-- The complaint about a piece that ends on the given line. -/
def Piece.diagnostic? (line : Nat) : Piece → Option Diagnostic
  | unexpected c =>
    some { stage := .scan, cause := .unexpectedCharacter (String.singleton c), line? := some line }
  | unterminated _ => some { stage := .scan, cause := .unterminatedString, line? := some line }
  | _ => none

/-- The tokens of the pieces that follow on a line, and the end of the text. -/
def tokensFrom (line : Nat) : List Piece → List Token
  | [] => [.eof line]
  | p :: ps =>
    let line := line + p.newlines
    (p.token? line).toList ++ tokensFrom line ps

/-- The diagnostics of the pieces that follow on a line. -/
def diagnosticsFrom (line : Nat) : List Piece → List Diagnostic
  | [] => []
  | p :: ps =>
    let line := line + p.newlines
    (p.diagnostic? line).toList ++ diagnosticsFrom line ps

/-- The tokens of a text with what was wrong in it. -/
structure Scan where
  tokens : List Token
  diagnostics : List Diagnostic

/-- Scans a text. Lines count from one. -/
def scan (source : String) : Scan :=
  let pieces := cut source.toList
  { tokens := tokensFrom 1 pieces, diagnostics := diagnosticsFrom 1 pieces }

end LoxLang
