import LoxLang.Token

/-!
# Cutting a text into pieces

A text is a sequence of pieces: blanks, newlines, comments, tokens, single characters that no token begins
with, and possibly a string without its closing quote at the end. Each piece is the longest one that begins
where it stands, so the cut is unique; the texts of the pieces concatenate to the text.
-/

namespace LoxLang

/-! ### Character classes

They are those of the language and not of Unicode: a letter with an accent begins no token. -/

/-- A letter or an underscore; ASCII alone. -/
def isWordStart (c : Char) : Bool :=
  c.isAlpha || c == '_'

/-- A letter, an underscore or a digit; ASCII alone. -/
def isWordRest (c : Char) : Bool :=
  isWordStart c || c.isDigit

/-- The characters that only separate. A newline is a piece of its own. -/
def isBlank (c : Char) : Bool :=
  c == ' ' || c == '\r' || c == '\t'

/-! ### Pieces

The first character, and in a few cases the one behind it, decides what sort of piece begins. -/

/-- A piece of a text. -/
inductive Piece where
  | blank (c : Char)
  | newline
  /-- What follows the two slashes, up to the end of the line. -/
  | comment (rest : List Char)
  | token (kind : Kind) (lexeme : List Char)
  | unexpected (c : Char)
  /-- What follows the opening quote of a string that is never closed. -/
  | unterminated (rest : List Char)
deriving DecidableEq, Inhabited

namespace Piece

/-- The characters of a piece. -/
def text : Piece → List Char
  | blank c => [c]
  | newline => ['\n']
  | comment rest => '/' :: '/' :: rest
  | token _ lexeme => lexeme
  | unexpected c => [c]
  | unterminated rest => '"' :: rest

/-- The number of lines that a piece ends. -/
def newlines (p : Piece) : Nat :=
  p.text.count '\n'

/-- The lexeme of the number that begins with the digit `c`: all digits, and a fraction only if a digit
follows the point. -/
def numberLexeme (c : Char) (cs : List Char) : List Char :=
  let whole := c :: cs.takeWhile Char.isDigit
  match cs.dropWhile Char.isDigit with
  | '.' :: d :: rest => if d.isDigit then whole ++ '.' :: d :: rest.takeWhile Char.isDigit else whole
  | _ => whole

/-- The piece that begins with the character `c`. -/
def ofCons (c : Char) (cs : List Char) : Piece :=
  if let some kind := Kind.ofSingle? c then
    token kind [c]
  else if let some (paired, alone) := Kind.ofPair? c then
    if cs.head? = some '=' then token paired [c, '='] else token alone [c]
  else if c = '/' then
    match cs with
    | '/' :: rest => comment (rest.takeWhile (· != '\n'))
    | _ => token .slash [c]
  else if isBlank c then
    blank c
  else if c = '\n' then
    newline
  else if c = '"' then
    if cs.contains '"' then token .string (c :: cs.takeWhile (· != '"') ++ ['"'])
    else unterminated cs
  else if c.isDigit then
    token .number (numberLexeme c cs)
  else if isWordStart c then
    let lexeme := c :: cs.takeWhile isWordRest
    token (.ofWord (String.ofList lexeme)) lexeme
  else
    unexpected c

end Piece

/-! ### The cut

The pieces are taken off the front, one after the other. -/

/-- At most `n` pieces from the front of a text. -/
def cutAtMost : Nat → List Char → List Piece
  | 0, _ => []
  | _ + 1, [] => []
  | n + 1, c :: cs =>
    let p := Piece.ofCons c cs
    p :: cutAtMost n ((c :: cs).drop p.text.length)

/-- The pieces of a text. No piece is empty, so there are at most as many as characters. -/
def cut (cs : List Char) : List Piece :=
  cutAtMost cs.length cs

end LoxLang
