import LoxLang.Proofs.Parse.Grammar
import LoxLang.Scope.Resolve

/-!
# Well-formed trees

The trees that come from source text have no unknown nodes, their operators are those of the language, their
names are identifiers, and no declaration is the branch of a condition or the body of a loop.
`Phrase.Derives.formed` and `Clause.Derives.formed` say so for what is derived in any dialect.
-/

namespace LoxLang

variable {ρ : Type}

/-- A token of a kind with a further property. -/
def Token.Is (P : Token → Prop) (kind : Kind) (t : Token) : Prop :=
  t.kind = kind ∧ P t

/-! ## The forms of trees

What is said of names is left to a property of tokens, which is not only their kind: in a scanned text it is also that a
name is spelled as names are. -/

/-- An expression of which every node has a proper form and every name and keyword has the property. -/
def Expr.Formed (P : Token → Prop) : Expr ρ → Prop
  | .assign target value => target.name.Is P .identifier ∧ value.Formed P
  | .binary left operator right =>
    left.Formed P ∧
      operator.kind ∈ [.bangEqual, .equalEqual, .greater, .greaterEqual, .less, .lessEqual, .minus, .plus,
        .slash, .star] ∧
      right.Formed P
  | .call callee _ arguments => callee.Formed P ∧ all arguments
  | .get object name => object.Formed P ∧ name.Is P .identifier
  | .grouping inner => inner.Formed P
  | .literal _ => True
  | .logical left operator right => left.Formed P ∧ operator.kind ∈ [.or, .and] ∧ right.Formed P
  | .set object name value => object.Formed P ∧ name.Is P .identifier ∧ value.Formed P
  | .super keyword method => keyword.name.Is P .super ∧ method.Is P .identifier
  | .this keyword => keyword.name.Is P .this
  | .unary operator right => operator.kind ∈ [.bang, .minus] ∧ right.Formed P
  | .variable reference => reference.name.Is P .identifier
  | .unknown => False
where
  all : List (Expr ρ) → Prop
    | [] => True
    | e :: es => e.Formed P ∧ all es

/-- An expression that may be missing. -/
def Expr.OptionFormed (P : Token → Prop) : Option (Expr ρ) → Prop
  | some e => e.Formed P
  | none => True

mutual

/-- A statement of which every node has a proper form and every name and keyword has the property. -/
def Stmt.Formed (P : Token → Prop) : Stmt ρ → Prop
  | .block body => Stmt.AllFormed P body
  | .expression value => value.Formed P
  | .function declaration => declaration.Formed P
  | .class name superclass methods =>
    name.Is P .identifier ∧ (∀ r ∈ superclass, r.name.Is P .identifier) ∧ FunDecl.AllFormed P methods
  | .if condition thenBranch elseBranch =>
    condition.Formed P ∧ (thenBranch.declared = [] ∧ thenBranch.Formed P) ∧
      (match elseBranch with
        | some s => s.declared = [] ∧ s.Formed P
        | none => True)
  | .print value => value.Formed P
  | .return _ value => Expr.OptionFormed P value
  | .var name initializer => name.Is P .identifier ∧ Expr.OptionFormed P initializer
  | .while condition body => condition.Formed P ∧ body.declared = [] ∧ body.Formed P
  | .unknown => False

def Stmt.AllFormed (P : Token → Prop) : List (Stmt ρ) → Prop
  | [] => True
  | s :: ss => s.Formed P ∧ Stmt.AllFormed P ss

/-- A function with a proper body. -/
def FunDecl.Formed (P : Token → Prop) : FunDecl ρ → Prop
  | ⟨name, params, body⟩ =>
    name.Is P .identifier ∧ (∀ p ∈ params, p.Is P .identifier) ∧ Stmt.AllFormed P body

def FunDecl.AllFormed (P : Token → Prop) : List (FunDecl ρ) → Prop
  | [] => True
  | d :: ds => d.Formed P ∧ FunDecl.AllFormed P ds

end

variable {P : Token → Prop}

/-- The statements of a block, one by one. -/
theorem Stmt.allFormed_iff {ss : List (Stmt ρ)} : Stmt.AllFormed P ss ↔ ∀ s ∈ ss, s.Formed P := by
  induction ss with
  | nil => simp [Stmt.AllFormed]
  | cons s ss ih => simp [Stmt.AllFormed, ih]

/-- The methods of a class, one by one. -/
theorem FunDecl.allFormed_iff {ds : List (FunDecl ρ)} : FunDecl.AllFormed P ds ↔ ∀ d ∈ ds, d.Formed P := by
  induction ds with
  | nil => simp [FunDecl.AllFormed]
  | cons d ds ih => simp [FunDecl.AllFormed, ih]

/-! ## What is derived is well-formed

By induction on derivations, with each form of tree coming from one rule. -/

/-- The trees of a phrase, those that are made out of others provided that these are well-formed. -/
def Phrase.Formed (P : Token → Prop) : Phrase → Prop
  | .expr _ e => e.Formed P
  | .operations _ left e => left.Formed P → e.Formed P
  | .suffixes target e => target.Formed P → e.Formed P
  | .arguments es => Expr.Formed.all P es
  | .argumentList es => Expr.Formed.all P es

/-- An operation with an operator of its level is well-formed. -/
theorem Rank.node_formed {r : Rank} {left right : SourceExpr} {operator : Token}
    (hleft : left.Formed P) (hoperator : operator.kind ∈ r.operators) (hright : right.Formed P) :
    (r.node left operator right).Formed P := by
  cases r <;> refine ⟨hleft, ?_, hright⟩ <;> revert hoperator <;> cases operator.kind <;> decide

/-- The tokens of a tree are among those it is derived from, each of the kind that its place asks for. -/
theorem Phrase.Derives.formed {d : Dialect} {p : Phrase} {w : List Token} (h : p.Derives d w)
    (hP : ∀ t ∈ w, P t) : p.Formed P := by
  -- what holds of all tokens holds of those of each part; suffixes and operators are put around what stands before
  -- them
  induction h with
  | assign hname hequals _ ih => exact ⟨⟨hname, hP _ (by simp)⟩, ih fun t ht => hP t (by simp [ht])⟩
  | set _ _ hname _ _ ih₁ ih₂ =>
    exact ⟨ih₁ fun t ht => hP t (by simp [ht]), ⟨hname, hP _ (by simp)⟩, ih₂ fun t ht => hP t (by simp [ht])⟩
  | misplaced _ _ _ _ _ _ ih₁ => exact ih₁ fun t ht => hP t (by simp [ht])
  | disjunction _ ih => exact ih hP
  | joined _ _ ih₁ ih₂ =>
    exact ih₂ (fun t ht => hP t (by simp [ht])) (ih₁ fun t ht => hP t (by simp [ht]))
  | noOperation => exact id
  | operation hoperator _ _ ih₁ ih₂ =>
    intro hleft
    have hright := ih₁ fun t ht => hP t (by simp [ht])
    exact ih₂ (fun t ht => hP t (by simp [ht])) (Rank.node_formed hleft hoperator hright)
  | unary hoperator _ ih => exact ⟨hoperator, ih fun t ht => hP t (by simp [ht])⟩
  | noUnary _ ih => exact ih hP
  | call _ _ ih₁ ih₂ =>
    exact ih₂ (fun t ht => hP t (by simp [ht])) (ih₁ fun t ht => hP t (by simp [ht]))
  | noSuffix => exact id
  | arguments _ _ _ _ _ ih₁ ih₂ =>
    intro hcallee
    have hargs := ih₁ fun t ht => hP t (by simp [ht])
    exact ih₂ (fun t ht => hP t (by simp [ht])) ⟨hcallee, hargs⟩
  | property _ hname _ ih =>
    intro hobject
    exact ih (fun t ht => hP t (by simp [ht])) ⟨hobject, hname, hP _ (by simp)⟩
  | oneArgument _ ih => exact ⟨ih hP, trivial⟩
  | moreArguments _ _ _ ih₁ ih₂ =>
    exact ⟨ih₁ fun t ht => hP t (by simp [ht]), ih₂ fun t ht => hP t (by simp [ht])⟩
  | noArguments => exact trivial
  | someArguments _ ih => exact ih hP
  | literalFalse | literalTrue | literalNil | literal => exact trivial
  | this ht => exact ⟨ht, hP _ (by simp)⟩
  | identifier ht => exact ⟨ht, hP _ (by simp)⟩
  | grouping _ _ _ ih => exact ih fun t ht => hP t (by simp [ht])
  | super hkeyword _ hmethod => exact ⟨⟨hkeyword, hP _ (by simp)⟩, hmethod, hP _ (by simp)⟩

/-- An expression that is derived is well-formed. -/
theorem Expression.formed {d : Dialect} {e : SourceExpr} {w : List Token} (h : Expression d e w)
    (hP : ∀ t ∈ w, P t) : e.Formed P :=
  Phrase.Derives.formed h hP

end LoxLang
