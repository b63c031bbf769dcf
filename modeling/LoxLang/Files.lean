/-!
# Files

Absolute paths, and a tree of files that can be read and written.
-/

namespace LoxLang

/-! ### Locations

Paths are normalised by their text alone, as there are no links. -/

/-- A normalised absolute path: the names from the root down. Two slashes at the front of a path are kept, one or
more than two count as one. -/
structure Location where
  doubled : Bool
  names : List String
deriving DecidableEq, Inhabited

namespace Location

/-- The root of all paths. -/
def root : Location := ⟨false, []⟩

/-- Follows a name from a place in the tree; names are kept innermost first. A dot stays in place, two dots go
up, and there is nothing above the root. -/
def step (names : List String) (name : String) : List String :=
  if name = "" ∨ name = "." then names
  else if name = ".." then names.drop 1
  else name :: names

/-- The location of a path that is read in a directory. -/
def ofPath (directory : Location) (path : String) : Location :=
  let slashes := (path.toList.takeWhile (· == '/')).length
  let start : Location := if slashes = 0 then directory else ⟨slashes = 2, []⟩
  { start with names := ((path.splitOn "/").foldl step start.names.reverse).reverse }

/-- The text of a location. -/
def shown (l : Location) : String :=
  (if l.doubled then "//" else "/") ++ "/".intercalate l.names

/-- A name without its extension: what stands before the last dot, unless only dots stand before it. -/
def stem (name : List Char) : List Char :=
  let front := ((name.reverse.dropWhile (· != '.')).drop 1).reverse
  if front.any (· != '.') then front else name

/-- The location whose last name has the extension exchanged for another. -/
def withExtension (l : Location) (extension : String) : Location :=
  let name := String.ofList (stem (l.names.getLastD "").toList) ++ "." ++ extension
  { l with names := l.names.dropLast ++ [name] }

end Location

/-! ### Trees of files

What stands in the way of opening a file is told in the order in which the system would find it. -/

/-- What lies at a location. -/
inductive FileEntry where
  | file (content : ByteArray)
  | directory
deriving Inhabited

/-- Why a file cannot be opened. -/
inductive FileError where
  | missing | notDirectory | isDirectory | nameTooLong
  /-- The path holds the null character, so it is no path at all. -/
  | nullCharacter
deriving DecidableEq, Inhabited

namespace FileError

/-- The number under which the system knows an error. -/
def number? : FileError → Option Nat
  | missing => some 2
  | notDirectory => some 20
  | isDirectory => some 21
  | nameTooLong => some 36
  | nullCharacter => none

/-- What is said about an error. -/
def text : FileError → String
  | missing => "No such file or directory"
  | notDirectory => "Not a directory"
  | isDirectory => "Is a directory"
  | nameTooLong => "File name too long"
  | nullCharacter => "embedded null byte"

end FileError

/-- The files that are known. -/
structure FileTree where
  /-- Where paths that do not begin at the root begin. -/
  directory : Location
  entries : List (List String × FileEntry)
deriving Inhabited

namespace FileTree

/-- The most bytes of a name. -/
def maxName : Nat := 255

/-- The most bytes of a path. -/
def maxPath : Nat := 4095

/-- What lies under the given names; the working directory always exists, and so do the directories above it. -/
def entry? (t : FileTree) (names : List String) : Option FileEntry :=
  if names.isPrefixOf t.directory.names then some .directory
  else (t.entries.find? (·.1 == names)).map (·.2)

/-- The error that stands in the way from a directory to the last of the names below it, if any. -/
def obstacle? (t : FileTree) (above : List String) : List String → Option FileError
  | [] => none
  | name :: rest =>
    if maxName < name.utf8ByteSize then some .nameTooLong
    -- the last name may be missing, as the file may be a new one
    else if rest.isEmpty then none
    else
      let above := above ++ [name]
      match t.entry? above with
      | none => some .missing
      | some (.file _) => some .notDirectory
      | some .directory => obstacle? t above rest

/-- The entry at a location that can be reached; there may be none yet. -/
def find (t : FileTree) (l : Location) : Except FileError (Option FileEntry) :=
  if l.shown.contains '\x00' then throw .nullCharacter
  else if maxPath < l.shown.utf8ByteSize then throw .nameTooLong
  else
    match t.obstacle? [] l.names with
    | some e => throw e
    | none => return t.entry? l.names

/-- The content of a file. -/
def read (t : FileTree) (l : Location) : Except FileError ByteArray := do
  match ← t.find l with
  | none => throw .missing
  | some .directory => throw .isDirectory
  | some (.file content) => return content

/-- Gives a place in the tree a new entry. -/
def put (t : FileTree) (names : List String) (e : FileEntry) : FileTree :=
  { t with entries := t.entries.filter (·.1 != names) ++ [(names, e)] }

/-- Writes a file, which replaces an older one. -/
def write (t : FileTree) (l : Location) (content : String) : Except FileError FileTree := do
  match ← t.find l with
  | some .directory => throw .isDirectory
  | _ => return t.put l.names (.file content.toUTF8)

/-- Adds the directories that lead to a place. -/
def makeParents (t : FileTree) (names : List String) : FileTree :=
  (List.range names.length).foldl (fun t n =>
    let parent := names.take n
    if (t.entry? parent).isSome then t else t.put parent .directory) t

/-- A tree of the given entries and the directories that lead to them. -/
def ofEntries (directory : Location) (entries : List (Location × FileEntry)) : FileTree :=
  entries.foldl (fun t (l, e) => (t.makeParents l.names).put l.names e) ⟨directory, []⟩

end FileTree

/-! ### Texts

A text is decoded as a whole. -/

/-- The text of a file: UTF-8, in which every line break counts as a newline. There is none if the bytes are not
UTF-8. -/
def decodeText? (content : ByteArray) : Option String :=
  (String.fromUTF8? content).map fun s => String.ofList (newlines s.toList)
where
  newlines : List Char → List Char
    | '\r' :: '\n' :: cs => '\n' :: newlines cs
    | '\r' :: cs => '\n' :: newlines cs
    | c :: cs => c :: newlines cs
    | [] => []

end LoxLang
