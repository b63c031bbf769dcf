import LoxLang.Proofs.Scope.Rules
import Mathlib.Logic.Basic

/-!
# Returns outside of functions

* **`Stmt.returns`** — whether a statement has a `return` outside of the functions that it declares.
* **`anyReturns_of_violations`** — in a program that breaks no rule there is none.
-/

namespace LoxLang

variable {ρ σ : Type}

mutual

/-- Whether a statement has a `return` outside of the functions that it declares. -/
def Stmt.returns : Stmt ρ → Bool
  | .block body => Stmt.anyReturns body
  | .if _ thenBranch elseBranch =>
    thenBranch.returns ||
      (match elseBranch with
        | some s => s.returns
        | none => false)
  | .return _ _ => true
  | .while _ body => body.returns
  | .expression _ | .function _ | .class _ _ _ | .print _ | .var _ _ | .unknown => false

/-- Whether one of the statements has a `return` outside of functions. -/
def Stmt.anyReturns : List (Stmt ρ) → Bool
  | [] => false
  | s :: ss => s.returns || Stmt.anyReturns ss

end

/-! ## Other notes, more statements

A `return` has no note, and it is looked for in the same places. -/

mutual

/-- By the form of the statement; functions are not entered. -/
theorem Stmt.returns_mapNotes (f : ρ → σ) (s : Stmt ρ) : (s.mapNotes f).returns = s.returns := by
  cases s with
  | block body => exact Stmt.anyReturns_mapAllNotes f body
  | «if» condition thenBranch elseBranch =>
    have hthen := Stmt.returns_mapNotes f thenBranch
    cases elseBranch with
    | none => exact congrArg (· || false) hthen
    | some s => exact congrArg₂ (· || ·) hthen (Stmt.returns_mapNotes f s)
  | «while» condition body => exact Stmt.returns_mapNotes f body
  | expression | function | «class» | print | «return» | var | unknown => rfl

theorem Stmt.anyReturns_mapAllNotes (f : ρ → σ) (ss : List (Stmt ρ)) :
    Stmt.anyReturns (Stmt.mapAllNotes f ss) = Stmt.anyReturns ss := by
  cases ss with
  | nil => rfl
  | cons s ss => exact congrArg₂ (· || ·) (Stmt.returns_mapNotes f s) (Stmt.anyReturns_mapAllNotes f ss)

end

/-! ## The rule

Outside of functions a `return` is a violation at its place. So its place is one where rules are broken. -/

mutual

/-- Outside of all functions a `return` breaks a rule. -/
theorem Stmt.violations_of_returns {E : List Enclosure} (hE : Enclosure.nearestFunction? E = none) (s : Stmt ρ)
    (h : s.returns = true) : (s.places E).flatMap Place.violations ≠ [] := by
  -- functions are left out on both sides: a `return` in a body does not count as one of the statement
  cases s with
  | block body =>
    have hbody := Stmt.violations_of_anyReturns (E := .block :: E) hE body h
    rw [Stmt.places, List.flatMap_cons]
    exact List.append_ne_nil_of_right_ne_nil _ hbody
  | «if» condition thenBranch elseBranch =>
    cases elseBranch with
    | none =>
      have hthen := Stmt.violations_of_returns hE thenBranch (by simpa [Stmt.returns] using h)
      rw [Stmt.places, List.flatMap_append, List.flatMap_append]
      exact List.append_ne_nil_of_left_ne_nil (List.append_ne_nil_of_right_ne_nil _ hthen) _
    | some s =>
      rw [Stmt.places, List.flatMap_append, List.flatMap_append]
      rcases Bool.or_eq_true_iff.mp h with h | h
      · have hthen := Stmt.violations_of_returns hE thenBranch h
        exact List.append_ne_nil_of_left_ne_nil (List.append_ne_nil_of_right_ne_nil _ hthen) _
      · exact List.append_ne_nil_of_right_ne_nil _ (Stmt.violations_of_returns hE s h)
  | «return» keyword value =>
    rw [Stmt.places, List.flatMap_cons, Place.violations, hE]
    exact List.append_ne_nil_of_left_ne_nil (List.cons_ne_nil _ _) _
  | «while» condition body =>
    rw [Stmt.places, List.flatMap_append]
    exact List.append_ne_nil_of_right_ne_nil _ (Stmt.violations_of_returns hE body h)
  | expression | function | «class» | print | var | unknown => cases h

/-- One of the statements has it. -/
theorem Stmt.violations_of_anyReturns {E : List Enclosure} (hE : Enclosure.nearestFunction? E = none)
    (ss : List (Stmt ρ)) (h : Stmt.anyReturns ss = true) :
    (Stmt.placesAll E ss).flatMap Place.violations ≠ [] := by
  cases ss with
  | nil => cases h
  | cons s ss =>
    rw [Stmt.placesAll, List.flatMap_append]
    rcases Bool.or_eq_true_iff.mp h with h | h
    · exact List.append_ne_nil_of_left_ne_nil (Stmt.violations_of_returns hE s h) _
    · exact List.append_ne_nil_of_right_ne_nil _ (Stmt.violations_of_anyReturns hE ss h)

end

/-- A program that breaks no rule has no `return` outside of functions. -/
theorem anyReturns_of_violations {program : List (Stmt ρ)} (h : violations program = []) :
    Stmt.anyReturns program = false := by
  apply Bool.eq_false_iff.mpr
  intro hreturns
  exact Stmt.violations_of_anyReturns rfl program hreturns h

end LoxLang
