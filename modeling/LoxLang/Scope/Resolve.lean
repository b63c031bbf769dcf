import LoxLang.Diagnostic
import LoxLang.Scope.Table

/-!
# Resolving names

A walk over a program notes at each reference to a local name how many scopes lie between it and the nearest
scope that declares the name; a name that no scope declares is left to the globals. The walk also reports what
breaks the rules of scopes, classes and returns.
-/

namespace LoxLang

/-- The number of scopes between a reference and the declaration of its name; none for a global. -/
abbrev Hops := Option Nat

/-! ### Surroundings

They are handed down from the outside and not changed on the way back, so that leaving a scope takes no step of its own.
What a statement declares is read off the statement. -/

/-- What sort of function encloses a place. -/
inductive FunctionKind where
  | none | function | initializer | method
deriving DecidableEq, Inhabited

/-- What sort of class encloses a place. -/
inductive ClassKind where
  | none | base | derived
deriving DecidableEq, Inhabited

/-- What encloses a place in a program: the names that the local scopes have declared before it, innermost
scope first, and the sort of function and of class. -/
structure Surroundings where
  scopes : List (List String)
  function : FunctionKind
  heritage : ClassKind
deriving Inhabited

namespace Surroundings

/-- Outside of everything. -/
def topLevel : Surroundings :=
  ⟨[], .none, .none⟩

/-- Inside a new scope that declares these names. -/
def enter (around : Surroundings) (names : List String) : Surroundings :=
  { around with scopes := names :: around.scopes }

/-- After declarations in the innermost scope. Globals are not recorded. -/
def declaring (around : Surroundings) (names : List String) : Surroundings :=
  match around.scopes with
  | [] => around
  | scope :: scopes => { around with scopes := (names ++ scope) :: scopes }

/-- Whether the innermost scope declares a name. -/
def declares (around : Surroundings) (name : String) : Bool :=
  (around.scopes.headD []).contains name

/-- The number of scopes inside the nearest one that declares a name. -/
def hops (around : Surroundings) (name : String) : Hops :=
  around.scopes.findIdx? (·.contains name)

end Surroundings

/-- The names that a statement adds to the scope it stands in. -/
def Stmt.declared {ρ : Type} : Stmt ρ → List String
  | .function declaration => [declaration.name.lexeme]
  | .class name _ _ => [name.lexeme]
  | .var name _ => [name.lexeme]
  | .if _ thenBranch elseBranch =>
    (match elseBranch with
      | some s => s.declared
      | none => []) ++ thenBranch.declared
  | .while _ body => body.declared
  | _ => []

/-! ### Findings

A walk goes on behind a breach of the rules, so that all of them are found. Only a node of no known form ends it. -/

/-- What a walk has found: entries for the distance table and diagnostics, in the order of the walk. After a
fault nothing more is found. -/
structure Findings where
  entries : List Entry := []
  diagnostics : List Diagnostic := []
  fault? : Option Fault := none
deriving Inhabited

/-- Walks that add to the findings. -/
abbrev Resolution := StateM Findings

namespace Resolution

/-- Reports a breach of the rules at a token. -/
def complain (cause : Cause) (token : Token) : Resolution Unit :=
  modify fun found =>
    if found.fault?.isSome then found
    else { found with diagnostics := found.diagnostics ++ [.ofToken .resolve cause token] }

/-- Meets a node of no known form. -/
def meetUnknown (family : Family) : Resolution Unit :=
  modify fun found =>
    { found with fault? := found.fault?.or (some (.noRule "Resolver" family)) }

/-- Looks a reference up in the scopes and enters it in the table if it is local. -/
def refer (around : Surroundings) (kind : ReferenceKind) (reference : Reference Unit) :
    Resolution (Reference Hops) := fun found =>
  let name := reference.name
  match around.hops name.lexeme, found.fault? with
  | some depth, none =>
    (⟨name, some depth⟩, { found with entries := found.entries ++ [.of kind name depth] })
  | _, _ => (⟨name, none⟩, found)

/-- Reports a name that the innermost scope has declared already. -/
def complainIfDeclared (around : Surroundings) (name : Token) : Resolution Unit := do
  if around.declares name.lexeme then
    complain .duplicateVariable name

/-- Declares parameters in a scope of their own. -/
def params (around : Surroundings) : List Token → Resolution Surroundings
  | [] => return around
  | p :: ps => do
    complainIfDeclared around p
    params (around.declaring [p.lexeme]) ps

end Resolution

open Resolution

/-! ### Expressions

The order of the walk is the order of the findings. It is not everywhere the order of the text: the value of an
assignment is walked before its target. -/

/-- Resolves an expression. `pending` is the local variable whose initializer it belongs to. -/
def Expr.resolve (around : Surroundings) (pending : Option String) :
    Expr Unit → Resolution (Expr Hops)
  | .assign target value => do
    -- the value comes before the target, in the table too
    let value ← value.resolve around pending
    return .assign (← refer around .assign target) value
  | .binary left operator right => do
    let left ← left.resolve around pending
    return .binary left operator (← right.resolve around pending)
  | .call callee paren arguments => do
    let callee ← callee.resolve around pending
    return .call callee paren (← all arguments)
  | .get object name => return .get (← object.resolve around pending) name
  | .grouping inner => return .grouping (← inner.resolve around pending)
  | .literal value => return .literal value
  | .logical left operator right => do
    let left ← left.resolve around pending
    return .logical left operator (← right.resolve around pending)
  | .set object name value => do
    let value ← value.resolve around pending
    return .set (← object.resolve around pending) name value
  | .super keyword method => do
    match around.heritage with
    | .none => complain .superOutsideClass keyword.name
    | .base => complain .superWithoutSuperclass keyword.name
    | .derived => pure ()
    return .super (← refer around .super keyword) method
  | .this keyword => do
    if around.heritage = .none then
      complain .thisOutsideClass keyword.name
      return .this ⟨keyword.name, none⟩
    else
      return .this (← refer around .this keyword)
  | .unary operator right => return .unary operator (← right.resolve around pending)
  | .variable reference => do
    if pending = some reference.name.lexeme then
      complain .selfReferentialInitializer reference.name
    return .variable (← refer around .variable reference)
  | .unknown => do
    meetUnknown .expression
    return .unknown
where
  all : List (Expr Unit) → Resolution (List (Expr Hops))
    | [] => return []
    | e :: es => do
      let e ← e.resolve around pending
      return e :: (← all es)

/-- Resolves an expression that may be missing. -/
def Expr.resolveOption (around : Surroundings) (pending : Option String) :
    Option (Expr Unit) → Resolution (Option (Expr Hops))
  | some e => return some (← e.resolve around pending)
  | none => return none

/-! ### Statements

A name is declared before the initializer, the body or the methods that may refer to it. -/

/-- The kind of a method by its name. -/
def FunctionKind.ofMethod (name : Token) : FunctionKind :=
  if name.lexeme = "init" then .initializer else .method

mutual

/-- Resolves a statement. -/
def Stmt.resolve (around : Surroundings) : Stmt Unit → Resolution (Stmt Hops)
  | .block body => return .block (← Stmt.resolveAll (around.enter []) body)
  | .expression value => return .expression (← value.resolve around none)
  | .function declaration => do
    complainIfDeclared around declaration.name
    let around := around.declaring [declaration.name.lexeme]
    return .function (← declaration.resolve { around with function := .function })
  | .class name superclass methods => do
    complainIfDeclared around name
    let around := around.declaring [name.lexeme]
    match superclass with
    | none =>
      let inner := { around with heritage := .base }.enter ["this"]
      return .class name none (← FunDecl.resolveMethods inner methods)
    | some reference =>
      if reference.name.lexeme = name.lexeme then
        complain .selfInheritance reference.name
      let superclass ← refer around .variable reference
      let inner := ({ around with heritage := .derived }.enter ["super"]).enter ["this"]
      return .class name (some superclass) (← FunDecl.resolveMethods inner methods)
  | .if condition thenBranch elseBranch => do
    let condition ← condition.resolve around none
    let thenResolved ← thenBranch.resolve around
    match elseBranch with
    | some s =>
      return .if condition thenResolved (some (← s.resolve (around.declaring thenBranch.declared)))
    | none => return .if condition thenResolved none
  | .print value => return .print (← value.resolve around none)
  | .return keyword value => do
    if around.function = .none then
      complain .topLevelReturn keyword
    if around.function = .initializer ∧ value.isSome then
      complain .returnValueFromInitializer keyword
    return .return keyword (← Expr.resolveOption around none value)
  | .var name initializer => do
    complainIfDeclared around name
    -- outside of all scopes an older global of the same name may be meant
    let pending := if around.scopes.isEmpty then none else some name.lexeme
    return .var name (← Expr.resolveOption (around.declaring [name.lexeme]) pending initializer)
  | .while condition body => do
    let condition ← condition.resolve around none
    return .while condition (← body.resolve around)
  | .unknown => do
    meetUnknown .statement
    return .unknown

/-- Resolves statements that follow one another in a scope. -/
def Stmt.resolveAll (around : Surroundings) : List (Stmt Unit) → Resolution (List (Stmt Hops))
  | [] => return []
  | s :: ss => do
    let resolved ← s.resolve around
    return resolved :: (← Stmt.resolveAll (around.declaring s.declared) ss)

/-- Resolves a function whose sort the surroundings give. -/
def FunDecl.resolve (around : Surroundings) : FunDecl Unit → Resolution (FunDecl Hops)
  | ⟨name, params, body⟩ => do
    let inner ← Resolution.params (around.enter []) params
    return ⟨name, params, ← Stmt.resolveAll inner body⟩

/-- Resolves the methods of a class. -/
def FunDecl.resolveMethods (around : Surroundings) : List (FunDecl Unit) → Resolution (List (FunDecl Hops))
  | [] => return []
  | ⟨name, params, body⟩ :: ds => do
    let inner ← Resolution.params ({ around with function := .ofMethod name }.enter []) params
    let method : FunDecl Hops := ⟨name, params, ← Stmt.resolveAll inner body⟩
    return method :: (← FunDecl.resolveMethods around ds)

end

/-- Resolves a whole program. -/
def resolve (program : List (Stmt Unit)) : List (Stmt Hops) × Findings :=
  (Stmt.resolveAll .topLevel program).run {}

/-- Resolves a node on its own; an expression as if it were a statement. -/
def Node.resolve : Node Unit → Node Hops × Findings
  | .expr e => let (e, found) := (e.resolve .topLevel none).run {}; (.expr e, found)
  | .stmt s => let (s, found) := (s.resolve .topLevel).run {}; (.stmt s, found)

end LoxLang
