import LoxLang.Scope.Resolve

/-!
# The rules of scopes, classes and returns

The rules, said of places in a tree and without any walk that keeps track of what it has seen. A place is a part of
the tree with all that encloses it; which rules it breaks is decided by these alone.

* **`Stmt.placesAll`** — the places of statements.
* **`Place.violations`** — the rules.
-/

namespace LoxLang

/-- What encloses a place, as far as the rules ask. -/
inductive Enclosure where
  | block
  | function
  | method (name : Token)
  | class (inherits : Bool)
  /-- The initializer of a variable. -/
  | initializer (name : Token)

/-- The parts of a tree that the rules are about. -/
inductive Part where
  /-- A local scope with the names that are declared in it, in their order. -/
  | scope (names : List Token)
  | read (name : Token)
  | this (keyword : Token)
  | super (keyword : Token)
  | return (keyword : Token) (hasValue : Bool)
  | class (name : Token) (superclass? : Option Token)

/-- A part of a tree with what encloses it, innermost first. -/
structure Place where
  enclosures : List Enclosure
  part : Part

variable {ρ : Type}

/-! ## Places

Each place of a tree at which a rule may be broken is listed with what encloses it. -/

/-- The names that statements declare in the scope in which they stand. -/
def Stmt.declaredTokens : List (Stmt ρ) → List Token
  | [] => []
  | .function ⟨name, _, _⟩ :: ss | .class name _ _ :: ss | .var name _ :: ss => name :: declaredTokens ss
  | _ :: ss => declaredTokens ss

/-- The places of an expression. -/
def Expr.places (E : List Enclosure) : Expr ρ → List Place
  | .assign _ value => value.places E
  | .binary left _ right | .logical left _ right => left.places E ++ right.places E
  | .call callee _ arguments => callee.places E ++ all arguments
  | .get object _ => object.places E
  | .grouping inner => inner.places E
  | .set object _ value => object.places E ++ value.places E
  | .super keyword _ => [⟨E, .super keyword.name⟩]
  | .this keyword => [⟨E, .this keyword.name⟩]
  | .unary _ right => right.places E
  | .variable reference => [⟨E, .read reference.name⟩]
  | .literal _ | .unknown => []
where
  all : List (Expr ρ) → List Place
    | [] => []
    | e :: es => e.places E ++ all es

/-- The places of an expression that may be missing. -/
def Expr.optionPlaces (E : List Enclosure) : Option (Expr ρ) → List Place
  | some e => e.places E
  | none => []

mutual

/-- The places of a statement. -/
def Stmt.places (E : List Enclosure) : Stmt ρ → List Place
  | .block body => ⟨.block :: E, .scope (Stmt.declaredTokens body)⟩ :: Stmt.placesAll (.block :: E) body
  | .expression value | .print value => value.places E
  | .function declaration => declaration.places (.function :: E)
  | .class name superclass methods =>
    ⟨E, .class name (superclass.map (·.name))⟩ ::
      ((superclass.map fun r => Place.mk E (.read r.name)).toList ++
        FunDecl.placesAll (.class superclass.isSome :: E) methods)
  | .if condition thenBranch elseBranch =>
    condition.places E ++ thenBranch.places E ++
      (match elseBranch with
        | some s => s.places E
        | none => [])
  | .return keyword value => ⟨E, .return keyword value.isSome⟩ :: Expr.optionPlaces E value
  | .var name initializer => Expr.optionPlaces (.initializer name :: E) initializer
  | .while condition body => condition.places E ++ body.places E
  | .unknown => []

/-- The places of statements that follow one another. -/
def Stmt.placesAll (E : List Enclosure) : List (Stmt ρ) → List Place
  | [] => []
  | s :: ss => s.places E ++ Stmt.placesAll E ss

/-- The places of a function, which is the innermost enclosure. Its parameters and the declarations of its body
share one scope. -/
def FunDecl.places (E : List Enclosure) : FunDecl ρ → List Place
  | ⟨_, params, body⟩ => ⟨E, .scope (params ++ Stmt.declaredTokens body)⟩ :: Stmt.placesAll E body

/-- The places of the methods of a class. -/
def FunDecl.placesAll (E : List Enclosure) : List (FunDecl ρ) → List Place
  | [] => []
  | ⟨name, params, body⟩ :: ds =>
    FunDecl.places (.method name :: E) ⟨name, params, body⟩ ++ FunDecl.placesAll E ds

end

/-! ## Rules

A rule is read off its place alone. No rule mentions how the tree is walked. -/

namespace Enclosure

/-- The nearest function or method. -/
def nearestFunction? (E : List Enclosure) : Option Enclosure :=
  E.find? fun
    | .function | .method _ => true
    | _ => false

/-- The nearest class. -/
def nearestClass? (E : List Enclosure) : Option Enclosure :=
  E.find? fun
    | .class _ => true
    | _ => false

/-- The local variable whose initializer is the innermost enclosure. A variable is local if something else encloses
its declaration. -/
def ownVariable? : List Enclosure → Option String
  | .initializer name :: _ :: _ => some name.lexeme
  | _ => none

end Enclosure

/-- The names that stand behind an equal one. `earlier` are names before all of them. -/
def repeated (earlier : List String) : List Token → List Token
  | [] => []
  | t :: ts => (if t.lexeme ∈ earlier then [t] else []) ++ repeated (t.lexeme :: earlier) ts

/-- What is wrong at a place, each thing at its token. -/
def Place.violations : Place → List Diagnostic
  | ⟨_, .scope names⟩ => (repeated [] names).map (.ofToken .resolve .duplicateVariable)
  | ⟨E, .read name⟩ =>
    if Enclosure.ownVariable? E = some name.lexeme then
      [.ofToken .resolve .selfReferentialInitializer name]
    else []
  | ⟨E, .this keyword⟩ =>
    if (Enclosure.nearestClass? E).isNone then [.ofToken .resolve .thisOutsideClass keyword] else []
  | ⟨E, .super keyword⟩ =>
    match Enclosure.nearestClass? E with
    | none => [.ofToken .resolve .superOutsideClass keyword]
    | some (.class false) => [.ofToken .resolve .superWithoutSuperclass keyword]
    | _ => []
  | ⟨E, .return keyword hasValue⟩ =>
    match Enclosure.nearestFunction? E with
    | none => [.ofToken .resolve .topLevelReturn keyword]
    | some (.method name) =>
      if name.lexeme = "init" ∧ hasValue = true then [.ofToken .resolve .returnValueFromInitializer keyword]
      else []
    | _ => []
  | ⟨_, .class name superclass?⟩ =>
    (superclass?.toList.filter (·.lexeme = name.lexeme)).map (.ofToken .resolve .selfInheritance)

/-- All that is wrong in a program. -/
def violations (program : List (Stmt ρ)) : List Diagnostic :=
  (Stmt.placesAll [] program).flatMap Place.violations

end LoxLang
