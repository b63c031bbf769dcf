import LoxLang.Decimal.Layout

/-!
# Tokens

A token is a lexeme with its kind, the literal it denotes and the line on which it ends.
-/

namespace LoxLang

/-- The kinds of tokens. -/
inductive Kind where
  | leftParen | rightParen | leftBrace | rightBrace
  | comma | dot | minus | plus | semicolon | slash | star
  | bang | bangEqual | equal | equalEqual | greater | greaterEqual | less | lessEqual
  | identifier | string | number
  | and | class : Kind | else | false | fun | for | if | nil | or
  | print | return | super | this | true | var | while
  | eof
deriving DecidableEq, Inhabited

namespace Kind

/-- Every kind with its name. -/
def names : List (Kind × String) :=
  [(.leftParen, "LEFT_PAREN"), (.rightParen, "RIGHT_PAREN"), (.leftBrace, "LEFT_BRACE"),
   (.rightBrace, "RIGHT_BRACE"), (.comma, "COMMA"), (.dot, "DOT"), (.minus, "MINUS"), (.plus, "PLUS"),
   (.semicolon, "SEMICOLON"), (.slash, "SLASH"), (.star, "STAR"), (.bang, "BANG"),
   (.bangEqual, "BANG_EQUAL"), (.equal, "EQUAL"), (.equalEqual, "EQUAL_EQUAL"), (.greater, "GREATER"),
   (.greaterEqual, "GREATER_EQUAL"), (.less, "LESS"), (.lessEqual, "LESS_EQUAL"),
   (.identifier, "IDENTIFIER"), (.string, "STRING"), (.number, "NUMBER"), (.and, "AND"),
   (.class, "CLASS"), (.else, "ELSE"), (.false, "FALSE"), (.fun, "FUN"), (.for, "FOR"), (.if, "IF"),
   (.nil, "NIL"), (.or, "OR"), (.print, "PRINT"), (.return, "RETURN"), (.super, "SUPER"),
   (.this, "THIS"), (.true, "TRUE"), (.var, "VAR"), (.while, "WHILE"), (.eof, "EOF")]

/-- The name of a kind. -/
def name (k : Kind) : String :=
  (names.find? (·.1 == k)).elim "" (·.2)

/-- The kind of a name. -/
def ofName? (s : String) : Option Kind :=
  (names.find? (·.2 == s)).map (·.1)

/-- The reserved words in alphabetical order. -/
def keywords : List (String × Kind) :=
  [("and", .and), ("class", .class), ("else", .else), ("false", .false), ("for", .for), ("fun", .fun),
   ("if", .if), ("nil", .nil), ("or", .or), ("print", .print), ("return", .return), ("super", .super),
   ("this", .this), ("true", .true), ("var", .var), ("while", .while)]

/-- The kind of a whole word: a keyword's if the word is reserved. -/
def ofWord (word : String) : Kind :=
  (keywords.lookup word).getD .identifier

/-- The kind of a character that is a token whatever follows. -/
def ofSingle? : Char → Option Kind
  | '(' => some .leftParen
  | ')' => some .rightParen
  | '{' => some .leftBrace
  | '}' => some .rightBrace
  | ',' => some .comma
  | '.' => some .dot
  | '-' => some .minus
  | '+' => some .plus
  | ';' => some .semicolon
  | '*' => some .star
  | _ => none

/-- The kinds of an operator character with and without an equals sign after it. -/
def ofPair? : Char → Option (Kind × Kind)
  | '!' => some (.bangEqual, .bang)
  | '=' => some (.equalEqual, .equal)
  | '<' => some (.lessEqual, .less)
  | '>' => some (.greaterEqual, .greater)
  | _ => none

end Kind

/-! ### Literals

Words such as `true` carry no literal: what they stand for is in their kind. -/

/-- A literal value. Tokens carry `nil`, numbers and strings only. -/
inductive Literal where
  | nil
  | bool (b : Bool)
  | number (x : Float)
  | string (s : String)
deriving Inhabited

/-- The literal in the display of a token. -/
def Literal.display : Literal → String
  | .nil => "nil"
  | .bool b => if b then "true" else "false"
  | .number x => Layout.dumped.text x
  | .string s => s

/-! ### Tokens

The line is an integer, though those of a text are numbers from one on. -/

/-- A lexeme with its kind, its literal value and its line. -/
structure Token where
  kind : Kind
  lexeme : String
  literal : Literal
  line : Int
deriving Inhabited

namespace Token

/-- Kind, lexeme and literal, separated by blanks. -/
def display (t : Token) : String :=
  t.kind.name ++ " " ++ t.lexeme ++ " " ++ t.literal.display

/-- The token that ends a list. -/
def eof (line : Int) : Token :=
  ⟨.eof, "", .nil, line⟩

end Token

end LoxLang
