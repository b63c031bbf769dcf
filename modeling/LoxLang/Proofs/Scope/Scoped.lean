import LoxLang.Proofs.Parse.Formed
import LoxLang.Proofs.Token.Reading

/-!
# Trees that fit their scopes

`Scoped` relates a resolved tree to the scopes around it: each reference notes the distance to the nearest scope
that declares its name, and what a run takes for granted of a tree holds of it.

* **`Stmt.Scoped`**, **`Expr.Scoped`** — the relation.
* **`Stmt.NoSelfAssignment`** — no initializer of a local variable assigns to that variable.
-/

namespace LoxLang

/-- The names of the local scopes around a place, innermost scope first; in a scope the latest name first. -/
abbrev Scopes := List (List String)

namespace Scopes

/-- The number of scopes inside the nearest one that declares a name. -/
def hops (S : Scopes) (name : String) : Hops :=
  S.findIdx? (·.contains name)

/-- The scopes after a declaration in the innermost one. Globals are not recorded. -/
def declare (S : Scopes) (names : List String) : Scopes :=
  match S with
  | [] => []
  | scope :: S => (names ++ scope) :: S

/-- The innermost scope does not declare the name. -/
def Fresh (S : Scopes) (name : String) : Prop :=
  name ∉ S.headD []

/-- To declare nothing changes nothing. -/
@[simp] theorem declare_nil_right (S : Scopes) : S.declare [] = S := by
  cases S <;> rfl

/-- No scope is opened by declaring. -/
@[simp] theorem length_declare (S : Scopes) (names : List String) : (S.declare names).length = S.length := by
  cases S <;> rfl

@[simp] theorem isEmpty_declare (S : Scopes) (names : List String) : (S.declare names).isEmpty = S.isEmpty := by
  cases S <;> rfl

/-- The distance to a name, scope by scope. -/
theorem hops_cons (scope : List String) (S : Scopes) (name : String) :
    Scopes.hops (scope :: S) name = if name ∈ scope then some 0 else (S.hops name).map (· + 1) := by
  rw [hops, List.findIdx?_cons]
  by_cases h : name ∈ scope
  · rw [if_pos (by simpa using h), if_pos h]
  · rw [if_neg (by simpa using h), if_neg h]
    rfl

/-- A declaration does not change the distance to another name. -/
theorem hops_declare {S : Scopes} {names : List String} {name : String} (h : name ∉ names) :
    (S.declare names).hops name = S.hops name := by
  cases S with
  | nil => rfl
  | cons scope S =>
    rw [declare, hops_cons, hops_cons]
    have hiff : name ∈ names ++ scope ↔ name ∈ scope := by simp [h]
    simp only [hiff]

/-- The nearest scope that declares a name exists and declares it. -/
theorem getElem?_of_hops {S : Scopes} {name : String} {n : Nat} (h : S.hops name = some n) :
    ∃ scope, S[n]? = some scope ∧ name ∈ scope := by
  induction S generalizing n with
  | nil => cases h
  | cons scope S ih =>
    rw [hops_cons] at h
    split at h
    · cases h
      exact ⟨scope, rfl, by assumption⟩
    · obtain ⟨m, hm, rfl⟩ := Option.map_eq_some_iff.mp h
      exact ih hm

/-- A distance leads to one of the scopes. -/
theorem lt_length_of_hops {S : Scopes} {name : String} {n : Nat} (h : S.hops name = some n) :
    n < S.length := by
  obtain ⟨scope, hscope, -⟩ := getElem?_of_hops h
  exact (List.getElem?_eq_some_iff.mp hscope).1

end Scopes

/-- A name as a declaration may introduce it: an identifier, and no keyword of classes. -/
def Token.IsName (t : Token) : Prop :=
  t.lexeme ≠ "this" ∧ t.lexeme ≠ "super"

/-! ## The relation

By recursion on the tree, with the scopes changed as a run changes its frames. `strict` excludes assignments to a
variable within its own initializer, for which alone scopes and frames differ. -/

/-- An expression that fits scopes. `pending` is the variable whose initializer it belongs to: it counts for
assignments only. If `strict`, it is not assigned to either. -/
def Expr.Scoped (strict : Bool) (S : Scopes) (pending : Option String) : Expr Hops → Prop
  | .assign target value =>
    target.note = (S.declare pending.toList).hops target.name.lexeme ∧ target.name.IsName ∧
      (strict = true → pending ≠ some target.name.lexeme) ∧ value.Scoped strict S pending
  | .binary left operator right =>
    left.Scoped strict S pending ∧
      operator.kind ∈ [.bangEqual, .equalEqual, .greater, .greaterEqual, .less, .lessEqual, .minus, .plus,
        .slash, .star] ∧
      right.Scoped strict S pending
  | .call callee _ arguments => callee.Scoped strict S pending ∧ all arguments
  | .get object _ => object.Scoped strict S pending
  | .grouping inner => inner.Scoped strict S pending
  | .literal _ => True
  | .logical left _ right => left.Scoped strict S pending ∧ right.Scoped strict S pending
  | .set object _ value => object.Scoped strict S pending ∧ value.Scoped strict S pending
  | .super keyword _ =>
    ∃ n, keyword.note = some (n + 1) ∧ S.hops "super" = some (n + 1) ∧ S.hops "this" = some n
  | .this keyword =>
    keyword.name.lexeme = "this" ∧ ∃ n, keyword.note = some n ∧ S.hops "this" = some n
  | .unary operator right => operator.kind ∈ [.bang, .minus] ∧ right.Scoped strict S pending
  | .variable reference => reference.note = S.hops reference.name.lexeme
  | .unknown => False
where
  all : List (Expr Hops) → Prop
    | [] => True
    | e :: es => e.Scoped strict S pending ∧ all es

/-- An expression that may be missing. -/
def Expr.OptionScoped (strict : Bool) (S : Scopes) (pending : Option String) : Option (Expr Hops) → Prop
  | some e => e.Scoped strict S pending
  | none => True

mutual

/-- A statement that fits scopes. -/
def Stmt.Scoped (strict : Bool) (S : Scopes) : Stmt Hops → Prop
  | .block body => Stmt.AllScoped strict ([] :: S) body
  | .expression value => value.Scoped strict S none
  | .function declaration =>
    S.Fresh declaration.name.lexeme ∧ declaration.name.IsName ∧
      declaration.Scoped strict (S.declare [declaration.name.lexeme])
  | .class name superclass methods =>
    S.Fresh name.lexeme ∧ name.IsName ∧
      (match superclass with
        | none => FunDecl.AllScoped strict (["this"] :: S.declare [name.lexeme]) methods
        | some r =>
          r.note = S.hops r.name.lexeme ∧
            FunDecl.AllScoped strict (["this"] :: ["super"] :: S.declare [name.lexeme]) methods)
  | .if condition thenBranch elseBranch =>
    condition.Scoped strict S none ∧ (thenBranch.declared = [] ∧ thenBranch.Scoped strict S) ∧
      (match elseBranch with
        | some s => s.declared = [] ∧ s.Scoped strict S
        | none => True)
  | .print value => value.Scoped strict S none
  | .return _ value => Expr.OptionScoped strict S none value
  | .var name initializer =>
    S.Fresh name.lexeme ∧ name.IsName ∧
      Expr.OptionScoped strict S (if S.isEmpty then none else some name.lexeme) initializer
  | .while condition body =>
    condition.Scoped strict S none ∧ body.declared = [] ∧ body.Scoped strict S
  | .unknown => False

/-- Statements that follow one another. -/
def Stmt.AllScoped (strict : Bool) (S : Scopes) : List (Stmt Hops) → Prop
  | [] => True
  | s :: ss => s.Scoped strict S ∧ Stmt.AllScoped strict (S.declare s.declared) ss

/-- A function inside scopes. Its parameters and the declarations of its body share one scope. -/
def FunDecl.Scoped (strict : Bool) (S : Scopes) : FunDecl Hops → Prop
  | ⟨_, params, body⟩ =>
    (params.map (·.lexeme)).Nodup ∧ (∀ p ∈ params, p.IsName) ∧
      Stmt.AllScoped strict ((params.map (·.lexeme)).reverse :: S) body

/-- Methods of a class. -/
def FunDecl.AllScoped (strict : Bool) (S : Scopes) : List (FunDecl Hops) → Prop
  | [] => True
  | d :: ds => d.Scoped strict S ∧ FunDecl.AllScoped strict S ds

end

/-- The body stands in the scope of the parameters. -/
theorem FunDecl.Scoped.body {strict : Bool} {S : Scopes} {d : FunDecl Hops} (h : d.Scoped strict S) :
    Stmt.AllScoped strict ((d.params.map (·.lexeme)).reverse :: S) d.body := by
  obtain ⟨name, params, body⟩ := d
  exact h.2.2

/-! ## Trees without notes

Two trees are the same but for their notes if they are equal when the notes are removed. -/

abbrev Expr.erased {ρ : Type} (e : Expr ρ) : Expr Hops :=
  e.mapNotes fun _ => none

abbrev Expr.erasedAll {ρ : Type} (es : List (Expr ρ)) : List (Expr Hops) :=
  Expr.mapNotes.mapAll (fun _ => none) es

abbrev Stmt.erased {ρ : Type} (s : Stmt ρ) : Stmt Hops :=
  s.mapNotes fun _ => none

abbrev Stmt.erasedAll {ρ : Type} (ss : List (Stmt ρ)) : List (Stmt Hops) :=
  Stmt.mapAllNotes (fun _ => none) ss

abbrev FunDecl.erased {ρ : Type} (d : FunDecl ρ) : FunDecl Hops :=
  d.mapNotes fun _ => none

abbrev FunDecl.erasedAll {ρ : Type} (ds : List (FunDecl ρ)) : List (FunDecl Hops) :=
  FunDecl.mapAllNotes (fun _ => none) ds

@[simp] theorem FunDecl.erased_name {ρ : Type} (d : FunDecl ρ) : d.erased.name = d.name := by
  obtain ⟨name, params, body⟩ := d
  rfl

@[simp] theorem FunDecl.erased_params {ρ : Type} (d : FunDecl ρ) : d.erased.params = d.params := by
  obtain ⟨name, params, body⟩ := d
  rfl

/-! ## Assignments to a variable in its own initializer

Such an assignment is no breach of the rules, although there is no variable to assign to yet. Trees without any are told
from the others here. -/

section

variable {ρ : Type}

/-- An expression that assigns to a variable of the name. -/
def Expr.AssignsTo (name : String) : Expr ρ → Prop
  | .assign target value => target.name.lexeme = name ∨ value.AssignsTo name
  | .binary left _ right | .logical left _ right => left.AssignsTo name ∨ right.AssignsTo name
  | .call callee _ arguments => callee.AssignsTo name ∨ some arguments
  | .get object _ => object.AssignsTo name
  | .grouping inner => inner.AssignsTo name
  | .set object _ value => object.AssignsTo name ∨ value.AssignsTo name
  | .unary _ right => right.AssignsTo name
  | _ => False
where
  some : List (Expr ρ) → Prop
    | [] => False
    | e :: es => e.AssignsTo name ∨ some es

mutual

/-- No initializer of a local variable assigns to that variable. `isLocal` says whether the statement stands in a
local scope. -/
def Stmt.NoSelfAssignment (isLocal : Bool) : Stmt ρ → Prop
  | .block body => Stmt.NoSelfAssignments true body
  | .function declaration => declaration.NoSelfAssignment
  | .class _ _ methods => FunDecl.NoSelfAssignments methods
  | .if _ thenBranch elseBranch =>
    thenBranch.NoSelfAssignment isLocal ∧
      (match elseBranch with
        | some s => s.NoSelfAssignment isLocal
        | none => True)
  | .var name (some initializer) => isLocal = true → ¬ initializer.AssignsTo name.lexeme
  | .while _ body => body.NoSelfAssignment isLocal
  | _ => True

def Stmt.NoSelfAssignments (isLocal : Bool) : List (Stmt ρ) → Prop
  | [] => True
  | s :: ss => s.NoSelfAssignment isLocal ∧ Stmt.NoSelfAssignments isLocal ss

def FunDecl.NoSelfAssignment : FunDecl ρ → Prop
  | ⟨_, _, body⟩ => Stmt.NoSelfAssignments true body

def FunDecl.NoSelfAssignments : List (FunDecl ρ) → Prop
  | [] => True
  | d :: ds => d.NoSelfAssignment ∧ FunDecl.NoSelfAssignments ds

end

end

end LoxLang
