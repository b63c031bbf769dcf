import LoxLang.Decimal.Layout
import LoxLang.Text.Graphic

/-!
# Quoted names

A name in single quotes, or in double quotes if it holds a single quote and no double one. What cannot be seen is
escaped by its number.
-/

namespace LoxLang

namespace Quoted

/-- A backslash, a letter for the width, and that many hexadecimal digits. -/
def numeric (letter : Char) (width : Nat) (c : Char) : List Char :=
  '\\' :: letter :: Layout.pad width (Nat.toDigits 16 c.toNat)

/-- A character between the given quotes. -/
def escape (mark : Char) (c : Char) : List Char :=
  if c = mark ∨ c = '\\' then ['\\', c]
  else if c = '\n' then ['\\', 'n']
  else if c = '\r' then ['\\', 'r']
  else if c = '\t' then ['\\', 't']
  else if isGraphic c then [c]
  else if c.toNat < 0x100 then numeric 'x' 2 c
  else if c.toNat < 0x10000 then numeric 'u' 4 c
  else numeric 'U' 8 c

/-- The quotes for a text. -/
def mark (s : String) : Char :=
  if s.contains '\x27' && !s.contains '"' then '"' else '\x27'

/-- The quoted text. -/
def text (s : String) : String :=
  let q := mark s
  String.ofList (q :: (s.toList.flatMap (escape q) ++ [q]))

/-- Quoted texts in brackets. -/
def list (ss : List String) : String :=
  "[" ++ ", ".intercalate (ss.map text) ++ "]"

end Quoted

end LoxLang
