import LoxLang.Proofs.Filing.Ledger
import LoxLang.Proofs.Scope.Events

/-!
# Places of references

Filing a program gives each of its references a place of its own: the first free one of the ledger, in the order in
which they are read. The place holds what the reference has noted, and older places stay as they are.

* **`Stmt.fileAll_numbers`** — what filing enters behind a ledger, and the places that the references get.

`Filing.Numbers` is a triple for both.
-/

namespace LoxLang

namespace Event

/-- The notes of the references among events. -/
def notes (es : List (Event Hops)) : Ledger :=
  es.filterMap fun
    | .refer _ r => some r.note
    | _ => none

variable {es es' : List (Event Hops)}

@[simp] theorem notes_nil : notes [] = [] := rfl

/-- The notes of one and then those of the other. -/
@[simp] theorem notes_append : notes (es ++ es') = notes es ++ notes es' :=
  List.filterMap_append

@[simp] theorem notes_declare {name : String} : notes (.declare name :: es) = notes es := rfl

@[simp] theorem notes_refer {kind : ReferenceKind} {r : Reference Hops} :
    notes (.refer kind r :: es) = r.note :: notes es := rfl

/-- To open a scope is to note nothing. -/
@[simp] theorem notes_scope : notes (scope es) = notes es := by
  rw [scope]
  show notes (es ++ [.leave]) = _
  rw [notes_append]
  exact List.append_nil _

@[simp] theorem notes_params (ps : List Token) : notes (ps.map (.declare ·.lexeme)) = [] := by
  induction ps with
  | nil => rfl
  | cons p ps ih => exact ih

end Event

open Event

/-- So many places in a row, as notes. -/
def Ledger.places (first count : Nat) : Ledger :=
  (List.range' first count).map some

/-- Places are given out one after the other. -/
theorem Ledger.places_append (first count count' : Nat) :
    places first count ++ places (first + count) count' = places first (count + count') := by
  rw [places, places, places, ← List.map_append, List.range'_append_1]

/-- A walk that enters the notes of its tree, and gives the references the places of these entries. -/
def Filing.Numbers {α : Type} (events : α → List (Event Hops)) (a : α) (act : Filing α) : Prop :=
  ∀ L : Ledger, (act.run L).2 = L ++ notes (events a) ∧
    notes (events (act.run L).1) = Ledger.places L.length (notes (events a)).length

namespace Filing

variable {α β γ : Type} {events : α → List (Event Hops)} {events' : β → List (Event Hops)}
  {events'' : γ → List (Event Hops)} {a : α} {b : β} {act : Filing α} {act' : Filing β}

theorem Numbers.pure (h : notes (events a) = []) : Numbers events a (pure a) := by
  intro L
  rw [h]
  exact ⟨(List.append_nil L).symm, h⟩

theorem Numbers.map {g : α → β} (h : Numbers events a act) (hg : ∀ x, notes (events' (g x)) = notes (events x)) :
    Numbers events' (g a) (do return g (← act)) := by
  intro L
  obtain ⟨hledger, hplaces⟩ := h L
  rw [hg]
  exact ⟨hledger, (hg _).trans hplaces⟩

/-- The second part gets the places behind those of the first. -/
theorem Numbers.map₂ {g : α → β → γ} (h : Numbers events a act) (h' : Numbers events' b act')
    (hg : ∀ x y, notes (events'' (g x y)) = notes (events x) ++ notes (events' y)) :
    Numbers events'' (g a b) (do
      let x ← act
      return g x (← act')) := by
  intro L
  obtain ⟨hledger, hplaces⟩ := h L
  obtain ⟨hledger', hplaces'⟩ := h' (act.run L).2
  rw [hg]
  constructor
  · show (act'.run (act.run L).2).2 = _
    rw [hledger', hledger, List.append_assoc]
  · show notes (events'' (g (act.run L).1 (act'.run (act.run L).2).1)) = _
    rw [hg, hplaces, hplaces', hledger, List.length_append, List.length_append, Ledger.places_append]

theorem Numbers.map₃ {δ : Type} {events₃ : δ → List (Event Hops)} {c : γ} {act'' : Filing γ} {g : α → β → γ → δ}
    (h : Numbers events a act) (h' : Numbers events' b act') (h'' : Numbers events'' c act'')
    (hg : ∀ x y z, notes (events₃ (g x y z)) = notes (events x) ++ (notes (events' y) ++ notes (events'' z))) :
    Numbers events₃ (g a b c) (do
      let x ← act
      let y ← act'
      return g x y (← act'')) := by
  -- the last two parts are one
  have hpair : Numbers (fun p : β × γ => events' p.1 ++ events'' p.2) (b, c) (do
      let y ← act'
      return (y, ← act'')) := h'.map₂ h'' fun _ _ => notes_append
  have hall := h.map₂ hpair (g := fun x p => g x p.1 p.2) fun x p => by rw [hg, notes_append]
  exact hall

end Filing

open Filing

/-- A reference alone, whatever refers to a name by it. -/
def Reference.events (r : Reference Hops) : List (Event Hops) :=
  [.refer .variable r]

/-- The events of a superclass if there is one. -/
def Reference.optionEvents (r? : Option (Reference Hops)) : List (Event Hops) :=
  r?.elim [] Reference.events

/-- A reference gets the next place. -/
theorem Reference.file_numbers (r : Reference Hops) : Numbers Reference.events r r.file :=
  fun _ => ⟨rfl, rfl⟩

/-- A superclass that may be missing. -/
theorem Reference.fileOption_numbers (r? : Option (Reference Hops)) :
    Numbers Reference.optionEvents r? (Reference.fileOption r?) := by
  cases r? with
  | none => exact .pure rfl
  | some r => exact r.file_numbers.map fun _ => rfl

mutual

/-- By the form of the expression; parts are filed in the order in which they are resolved. -/
theorem Expr.file_numbers (e : Expr Hops) : Numbers Expr.events e e.file := by
  cases e with
  | assign target value =>
    exact (Expr.file_numbers value).map₂ target.file_numbers fun _ _ => by simp [Expr.events, Reference.events]
  | binary left operator right | logical left operator right =>
    exact (Expr.file_numbers left).map₂ (Expr.file_numbers right) fun _ _ => by simp [Expr.events]
  | call callee paren arguments =>
    exact (Expr.file_numbers callee).map₂ (Expr.file_all_numbers arguments) fun _ _ => by simp [Expr.events]
  | set object name value =>
    exact (Expr.file_numbers value).map₂ (Expr.file_numbers object) fun _ _ => by simp [Expr.events]
  | get e name | grouping e | unary operator e => exact (Expr.file_numbers e).map fun _ => rfl
  | super r method | this r | «variable» r => exact r.file_numbers.map fun _ => rfl
  | literal | unknown => exact .pure rfl

theorem Expr.file_all_numbers (es : List (Expr Hops)) : Numbers Expr.events.all es (Expr.file.all es) := by
  cases es with
  | nil => exact .pure rfl
  | cons e es => exact (Expr.file_numbers e).map₂ (Expr.file_all_numbers es) fun _ _ => by simp [Expr.events.all]

end

theorem Expr.fileOption_numbers (e? : Option (Expr Hops)) : Numbers Expr.optionEvents e? (Expr.fileOption e?) := by
  cases e? with
  | none => exact .pure rfl
  | some e => exact e.file_numbers.map fun _ => rfl

mutual

/-- The places in a statement are numbered from left to right, and the next statement goes on behind them. -/
theorem Stmt.file_numbers (s : Stmt Hops) : Numbers Stmt.events s s.file := by
  cases s with
  | block body => exact (Stmt.fileAll_numbers body).map fun _ => by simp [Stmt.events]
  | expression e | print e => exact e.file_numbers.map fun _ => rfl
  | function declaration => exact (FunDecl.file_numbers declaration).map fun _ => rfl
  | «class» name superclass methods =>
    refine (Reference.fileOption_numbers superclass).map₂ (FunDecl.fileAll_numbers methods) fun r? ds => ?_
    cases r? with
    | none => simp [Stmt.events, Reference.optionEvents]
    | some r => simp [Stmt.events, Reference.optionEvents, Reference.events]
  | «if» condition thenBranch elseBranch =>
    have hcondition := condition.file_numbers
    have hthen := Stmt.file_numbers thenBranch
    cases elseBranch with
    | none => exact hcondition.map₂ hthen fun _ _ => by simp [Stmt.events]
    | some s =>
      exact hcondition.map₃ hthen (Stmt.file_numbers s) fun _ _ _ => by simp [Stmt.events]
  | «return» word e? | var word e? => exact (Expr.fileOption_numbers e?).map fun _ => rfl
  | «while» condition body =>
    exact condition.file_numbers.map₂ (Stmt.file_numbers body) fun _ _ => by simp [Stmt.events]
  | unknown => exact .pure rfl

theorem Stmt.fileAll_numbers (ss : List (Stmt Hops)) : Numbers Stmt.eventsAll ss (Stmt.fileAll ss) := by
  cases ss with
  | nil => exact .pure rfl
  | cons s ss => exact (Stmt.file_numbers s).map₂ (Stmt.fileAll_numbers ss) fun _ _ => by simp [Stmt.eventsAll]

theorem FunDecl.file_numbers (d : FunDecl Hops) : Numbers FunDecl.events d d.file := by
  obtain ⟨name, params, body⟩ := d
  exact (Stmt.fileAll_numbers body).map fun _ => by simp [FunDecl.events]

theorem FunDecl.fileAll_numbers (ds : List (FunDecl Hops)) : Numbers FunDecl.eventsAll ds (FunDecl.fileAll ds) := by
  cases ds with
  | nil => exact .pure rfl
  | cons d ds =>
    exact (FunDecl.file_numbers d).map₂ (FunDecl.fileAll_numbers ds) fun _ _ => by simp [FunDecl.eventsAll]

end

end LoxLang
