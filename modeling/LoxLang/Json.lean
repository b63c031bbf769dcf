import LoxLang.Decimal.Layout

/-!
# JSON documents

Documents and their indented text. A document may hold something that cannot be written; writing then stops
there, and what was written before it remains.
-/

namespace LoxLang

/-- What keeps a part of a document from being written. -/
inductive Obstacle where
  /-- It is no document. -/
  | foreign
  /-- It has too many levels. -/
  | tooDeep
deriving DecidableEq, Inhabited

/-- What is said about an obstacle, if anything. -/
def Obstacle.message? : Obstacle → Option String
  | foreign => none
  | tooDeep => some "Maximum serialization depth exceeded"

/-- A JSON document. The members of an object keep their order. -/
inductive Json where
  | null
  | bool (b : Bool)
  | integer (n : Int)
  | number (x : Float)
  | string (s : String)
  | array (items : List Json)
  | object (members : List (String × Json))
  /-- A part that cannot be written. -/
  | unwritable (o : Obstacle)
deriving Inhabited

/-! ### Strings and numbers

Documents are ASCII, whatever the texts in them are. -/

/-- Numbers in documents: the names of the infinities and of NaN are spelled out. -/
def Layout.json : Layout :=
  { Layout.dumped with infinity := "Infinity".toList, nan := "NaN".toList }

namespace Json

/-- A number below `2 ^ 16` as four hexadecimal digits after a backslash and a `u`. -/
def unitEscape (n : Nat) : List Char :=
  '\\' :: 'u' :: Layout.pad 4 (Nat.toDigits 16 n)

/-- A character in a quoted string. All but printable ASCII is escaped, beyond `2 ^ 16` as two surrogates. -/
def escape (c : Char) : List Char :=
  match c with
  | '"' => ['\\', '"']
  | '\\' => ['\\', '\\']
  | '\n' => ['\\', 'n']
  | '\r' => ['\\', 'r']
  | '\t' => ['\\', 't']
  | '\x08' => ['\\', 'b']
  | '\x0c' => ['\\', 'f']
  | c =>
    let n := c.toNat
    if ' ' ≤ c ∧ c ≤ '~' then [c]
    else if n < 0x10000 then unitEscape n
    else unitEscape (0xd800 + (n - 0x10000) / 0x400) ++ unitEscape (0xdc00 + (n - 0x10000) % 0x400)

/-- A quoted string. -/
def quote (s : String) : String :=
  String.ofList ('"' :: (s.toList.flatMap escape ++ ['"']))

/-! ### Text

The writer stops at the first part that cannot be written, and what stands before it is kept. -/

/-- A text in the making; it ends at the first obstacle. -/
structure Draft where
  text : String
  obstacle? : Option Obstacle := none
deriving DecidableEq, Inhabited

namespace Draft

/-- The second text after the first one, if that has met no obstacle. -/
def append (a b : Draft) : Draft :=
  match a.obstacle? with
  | none => ⟨a.text ++ b.text, b.obstacle?⟩
  | some _ => a

instance : Append Draft := ⟨append⟩

/-- The text, if it has met no obstacle. -/
def text? (d : Draft) : Option String :=
  match d.obstacle? with
  | none => some d.text
  | some _ => none

end Draft

/-- A line break and the indentation of a level. -/
def newline (level : Nat) : String :=
  String.ofList ('\n' :: List.replicate (2 * level) ' ')

mutual

/-- The text of a document that stands at a level of indentation. -/
def draft (level : Nat) : Json → Draft
  | .null => { text := "null" }
  | .bool b => { text := if b then "true" else "false" }
  | .integer n => { text := toString n }
  | .number x => { text := Layout.json.text x }
  | .string s => { text := quote s }
  | .array [] => { text := "[]" }
  | .array (item :: items) =>
    { text := "[" ++ newline (level + 1) : Draft } ++ item.draft (level + 1) ++
      draftItems (level + 1) items ++ { text := newline level ++ "]" : Draft }
  | .object [] => { text := "\x7b\x7d" }
  | .object (member :: members) =>
    { text := "\x7b" ++ newline (level + 1) : Draft } ++ draftMember (level + 1) member ++
      draftMembers (level + 1) members ++ { text := newline level ++ "\x7d" : Draft }
  | .unwritable o => { text := "", obstacle? := some o }

/-- Further items of an array. -/
def draftItems (level : Nat) : List Json → Draft
  | [] => { text := "" }
  | item :: items =>
    { text := "," ++ newline level : Draft } ++ item.draft level ++ draftItems level items

/-- A member of an object. -/
def draftMember (level : Nat) : String × Json → Draft
  | (key, value) => { text := quote key ++ ": " : Draft } ++ value.draft level

/-- Further members of an object. -/
def draftMembers (level : Nat) : List (String × Json) → Draft
  | [] => { text := "" }
  | member :: members =>
    { text := "," ++ newline level : Draft } ++ draftMember level member ++ draftMembers level members

end

/-- The text of a document. -/
def write (document : Json) : Draft :=
  document.draft 0

end Json

end LoxLang
