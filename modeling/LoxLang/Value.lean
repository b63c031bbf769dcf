import LoxLang.Scope.Resolve

/-!
# Values

The values of a running program. Functions, classes and instances have an address that tells each from every
other; what may change about an instance lies in the heap under that address.
-/

namespace LoxLang

/-- A place in the heap. Later places have larger addresses. -/
abbrev Address := Nat

/-- The frames that a piece of code can see, innermost first; the last one holds the globals. -/
abbrev Environment := List Address

/-! ### Bindings

The order of the bindings can be seen when names are listed. -/

/-- Names with what they are bound to, in the order of their first binding. -/
abbrev Bindings (α : Type) := List (String × α)

namespace Bindings

variable {α : Type}

/-- What a name is bound to. -/
def get? (bindings : Bindings α) (name : String) : Option α :=
  match bindings with
  | [] => none
  | (n, a) :: rest => if n = name then some a else get? rest name

/-- Binds a name. A name that is bound already keeps its place. -/
def put (bindings : Bindings α) (name : String) (a : α) : Bindings α :=
  match bindings with
  | [] => [(name, a)]
  | (n, b) :: rest => if n = name then (n, a) :: rest else (n, b) :: put rest name a

/-- Binds names to values from left to right; what is left over on either side is ignored. -/
def ofLists : List String → List α → Bindings α :=
  fun names values => (names.zip values).foldl (fun b (n, a) => b.put n a) []

end Bindings

/-! ### Functions, classes and instances

They are values of their own, and not cells: what never changes about them need not lie in the heap. -/

/-- A function with the environment it was declared in. A bound method sees a frame that binds `this`. -/
structure Closure where
  address : Address
  declaration : FunDecl Hops
  environment : Environment
  isInitializer : Bool
deriving Inhabited

/-- What a class declares itself. -/
structure ClassLayer where
  address : Address
  name : String
  methods : Bindings Closure
deriving Inhabited

/-- A class: its own layer, then its superclass's, and so on. -/
structure Class where
  own : ClassLayer
  inherited : List ClassLayer
deriving Inhabited

/-- An instance of a class. -/
structure Instance where
  address : Address
  origin : Class
deriving Inhabited

namespace Closure

/-- The number of parameters. -/
def arity (f : Closure) : Nat :=
  f.declaration.params.length

end Closure

namespace Class

/-- The class that a class extends. -/
def superclass? (c : Class) : Option Class :=
  match c.inherited with
  | [] => none
  | layer :: layers => some ⟨layer, layers⟩

/-- The method of the first layer that declares the name. -/
def findMethod? (c : Class) (name : String) : Option Closure :=
  (c.own :: c.inherited).findSome? (·.methods.get? name)

/-- The method that a new instance is set up with. -/
def initializer? (c : Class) : Option Closure :=
  c.findMethod? "init"

/-- The number of arguments for a new instance. -/
def arity (c : Class) : Nat :=
  c.initializer?.elim 0 (·.arity)

end Class

/-! ### Values

The text of a value and its equality are those that programs can see. -/

/-- A value. `clock` is the one function that is not written in the language. -/
inductive Value where
  | nil
  | bool (b : Bool)
  | number (x : Float)
  | string (s : String)
  | function (f : Closure)
  | clock
  | classValue (c : Class)
  | object (i : Instance)
deriving Inhabited

/-- The value of a literal. -/
def Literal.value : Literal → Value
  | .nil => .nil
  | .bool b => .bool b
  | .number x => .number x
  | .string s => .string s

namespace Value

/-- What `print` writes. -/
def text : Value → String
  | nil => "nil"
  | bool b => if b then "true" else "false"
  | number x => Layout.printed.text x
  | string s => s
  | function f => "<fn " ++ f.declaration.name.lexeme ++ ">"
  | clock => "<native fn>"
  | classValue c => c.own.name
  | object i => i.origin.own.name ++ " instance"

/-- Only `nil` and `false` are false. -/
def isTruthy : Value → Bool
  | nil => false
  | bool b => b
  | _ => true

/-- Whether a value is a number. -/
def isNumber : Value → Bool
  | number _ => true
  | _ => false

/-- Equality never holds between different sorts. Numbers compare as numbers do, so NaN differs from itself;
functions, classes and instances are equal only to themselves. -/
def equals : Value → Value → Bool
  | nil, nil => true
  | bool a, bool b => a == b
  | number x, number y => x == y
  | string s, string t => s == t
  | function f, function g => f.address == g.address
  | clock, clock => true
  | classValue c, classValue d => c.own.address == d.own.address
  | object i, object j => i.address == j.address
  | _, _ => false

end Value

end LoxLang
