import LoxLang.Decimal.Shortest

/-!
# Layouts of numbers

A `Layout` says how a number is written once its digits are known. There are two: the text that `print`
writes and the text of a number in a dump.
-/

namespace LoxLang

/-- The choices of a number format. -/
structure Layout where
  /-- Below or at this place of the point the number is written with an exponent. -/
  lowPoint : Int
  /-- Above this place of the point the number is written with an exponent. -/
  highPoint : Int
  /-- What follows the digits of an integer. -/
  integerTail : List Char
  /-- The least number of digits of an exponent. -/
  exponentWidth : Nat
  /-- Whether a negative zero shows its sign. -/
  signedZero : Bool
  infinity : List Char
  nan : List Char

namespace Layout

/-- Zeros in front of `digits` up to the given width. -/
def pad (width : Nat) (digits : List Char) : List Char :=
  List.replicate (width - digits.length) '0' ++ digits

/-- Positional notation of `0.d₁…dₖ · 10 ^ point`. -/
def positional (layout : Layout) (digits : List Char) (point : Int) : List Char :=
  let k := digits.length
  if point ≤ 0 then
    '0' :: '.' :: (List.replicate (-point).toNat '0' ++ digits)
  else if point < k then
    digits.take point.toNat ++ '.' :: digits.drop point.toNat
  else
    digits ++ List.replicate (point.toNat - k) '0' ++ layout.integerTail

/-- Exponent notation of `0.d₁…dₖ · 10 ^ point`: one digit before the point, the sign of the exponent
always shown. -/
def scientific (layout : Layout) (digits : List Char) (point : Int) : List Char :=
  let mantissa :=
    match digits with
    | d :: e :: rest => d :: '.' :: e :: rest
    | short => short
  let exponent := point - 1
  mantissa ++ 'e' :: (if exponent < 0 then '-' else '+') ::
    pad layout.exponentWidth (Nat.toDigits 10 exponent.natAbs)

/-- The text of a positive decimal. -/
def decimal (layout : Layout) (d : Decimal) : List Char :=
  if layout.lowPoint < d.point ∧ d.point ≤ layout.highPoint then
    layout.positional d.digits d.point
  else
    layout.scientific d.digits d.point

/-- A minus sign before the text of a negative number. -/
def signed (negative : Bool) (text : List Char) : List Char :=
  if negative then '-' :: text else text

/-- The text of a number of a known shape. -/
def chars (layout : Layout) : FloatShape → List Char
  | .nan => layout.nan
  | .infinite negative => signed negative layout.infinity
  | .zero negative => signed (negative && layout.signedZero) ('0' :: layout.integerTail)
  | .finite negative m q narrow => signed negative (layout.decimal (.shortest m q narrow))

/-- The text of a double. -/
def text (layout : Layout) (x : Float) : String :=
  String.ofList (layout.chars (.of x))

/-- Printed numbers: integers below `10 ^ 21` in full, an exponent only outside `[10 ^ -6, 10 ^ 21)`, and no
sign on a zero. -/
def printed : Layout where
  lowPoint := -6
  highPoint := 21
  integerTail := []
  exponentWidth := 1
  signedZero := false
  infinity := "Infinity".toList
  nan := "NaN".toList

/-- Dumped numbers: always a point or an exponent, an exponent outside `[10 ^ -4, 10 ^ 16)` with two digits at
least. -/
def dumped : Layout where
  lowPoint := -4
  highPoint := 16
  integerTail := ['.', '0']
  exponentWidth := 2
  signedZero := true
  infinity := "inf".toList
  nan := "nan".toList

end Layout

end LoxLang
