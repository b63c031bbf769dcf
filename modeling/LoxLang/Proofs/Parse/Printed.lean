import LoxLang.Proofs.Parse.Formed
import LoxLang.Tree.Printer

/-!
# Well-formed trees have a text

The printer meets a fault only at a node of no known form. **`programText_succeeds`** says so for programs.
-/

namespace LoxLang

/-- A result that is no fault. -/
def Succeeds {α : Type} (x : Except Fault α) : Prop :=
  ∃ a, x = .ok a

/-- A text that is at hand. -/
theorem succeeds_pure {α : Type} (a : α) : Succeeds (pure a) :=
  ⟨a, rfl⟩

/-- A text that is put together from others. -/
theorem Succeeds.bind {α β : Type} {x : Except Fault α} {f : α → Except Fault β} (h : Succeeds x)
    (hf : ∀ a, Succeeds (f a)) : Succeeds (x >>= f) := by
  obtain ⟨a, rfl⟩ := h
  exact hf a

/-- A result put into a head of its own. -/
theorem Succeeds.map {α β : Type} {x : Except Fault α} {f : α → β} (h : Succeeds x) :
    Succeeds (x >>= fun a => pure (f a)) :=
  h.bind fun a => succeeds_pure (f a)

variable {ρ : Type} {P : Token → Prop}

mutual

/-- By the form of the expression, none of which is unknown. -/
theorem Expr.text_succeeds (e : Expr ρ) (h : e.Formed P) : Succeeds e.text := by
  cases e with
  | assign target value => exact (value.text_succeeds h.2).map
  | binary left operator right =>
    exact (left.text_succeeds h.1).bind fun _ => (right.text_succeeds h.2.2).map
  | call callee paren arguments =>
    exact (callee.text_succeeds h.1).bind fun _ => (Expr.texts_succeed arguments h.2).map
  | get object name => exact (object.text_succeeds h.1).map
  | grouping inner => exact (inner.text_succeeds h).map
  | literal value => exact succeeds_pure _
  | logical left operator right =>
    exact (left.text_succeeds h.1).bind fun _ => (right.text_succeeds h.2.2).map
  | set object name value =>
    exact (object.text_succeeds h.1).bind fun _ => (value.text_succeeds h.2.2).map
  | super keyword method => exact succeeds_pure _
  | this keyword => exact succeeds_pure _
  | unary operator right => exact (right.text_succeeds h.2).map
  | «variable» reference => exact succeeds_pure _
  | unknown => exact h.elim

theorem Expr.texts_succeed (es : List (Expr ρ)) (h : Expr.Formed.all P es) :
    Succeeds (Expr.text.texts es) := by
  cases es with
  | nil => exact succeeds_pure _
  | cons e es => exact (e.text_succeeds h.1).bind fun _ => (Expr.texts_succeed es h.2).map

end

/-- A part that is missing is printed as such. -/
theorem Expr.optionText_succeeds {e : Option (Expr ρ)} (h : Expr.OptionFormed P e) :
    Succeeds (Expr.optionText e) := by
  cases e with
  | none => exact succeeds_pure _
  | some e => exact (e.text_succeeds h).map

mutual

/-- By the form of the statement, none of which is unknown. -/
theorem Stmt.text_succeeds (s : Stmt ρ) (h : s.Formed P) : Succeeds s.text := by
  cases s with
  | block body => exact (Stmt.texts_succeed body h).map
  | expression value => exact (Expr.text_succeeds value h).map
  | function declaration => exact declaration.text_succeeds h
  | «class» name superclass methods => exact (FunDecl.texts_succeed methods h.2.2).map
  | «if» condition thenBranch elseBranch =>
    cases elseBranch with
    | none =>
      obtain ⟨hcondition, ⟨-, hthen⟩, -⟩ := h
      exact (condition.text_succeeds hcondition).bind fun _ => (thenBranch.text_succeeds hthen).map
    | some s =>
      obtain ⟨hcondition, ⟨-, hthen⟩, -, helse⟩ := h
      exact (condition.text_succeeds hcondition).bind fun _ =>
        (thenBranch.text_succeeds hthen).bind fun _ => (s.text_succeeds helse).map
  | print value => exact (Expr.text_succeeds value h).map
  | «return» keyword value => exact (Expr.optionText_succeeds (e := value) h).map
  | var name initializer => exact (Expr.optionText_succeeds h.2).map
  | «while» condition body =>
    exact (condition.text_succeeds h.1).bind fun _ => (body.text_succeeds h.2.2).map
  | unknown => exact h.elim

theorem Stmt.texts_succeed (ss : List (Stmt ρ)) (h : Stmt.AllFormed P ss) : Succeeds (Stmt.texts ss) := by
  cases ss with
  | nil => exact succeeds_pure _
  | cons s ss => exact (s.text_succeeds h.1).bind fun _ => (Stmt.texts_succeed ss h.2).map

/-- A function is printed with its body. -/
theorem FunDecl.text_succeeds (d : FunDecl ρ) (h : d.Formed P) : Succeeds d.text := by
  obtain ⟨name, params, body⟩ := d
  exact (Stmt.texts_succeed body h.2.2).map

theorem FunDecl.texts_succeed (ds : List (FunDecl ρ)) (h : FunDecl.AllFormed P ds) :
    Succeeds (FunDecl.texts ds) := by
  cases ds with
  | nil => exact succeeds_pure _
  | cons d ds => exact (d.text_succeeds h.1).bind fun _ => (FunDecl.texts_succeed ds h.2).map

end

/-- Every well-formed program has a text. -/
theorem programText_succeeds {program : List (Stmt ρ)} (h : Stmt.AllFormed P program) :
    Succeeds (programText program) :=
  (Stmt.texts_succeed program h).map

end LoxLang
