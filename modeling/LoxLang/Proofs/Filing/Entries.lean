import LoxLang.Proofs.Filing.Places
import LoxLang.Proofs.Scope.Distances
import Mathlib.Data.List.ReduceOption

/-!
# The ledger and the table

* **`resolve_enters`** — filing what the resolver has made of a program enters in the ledger the distances that the
  resolver has entered in the table, in the same order. Between them stand the references to globals.

Both go back to the references among the events: the table has an entry for each that notes a distance, and the ledger a
place for each.
-/

namespace LoxLang

/-- The distances among notes. -/
def Ledger.depths (L : Ledger) : List Int :=
  L.reduceOption.map Int.ofNat

/-- Depths are listed place by place. -/
theorem Ledger.depths_append (L L' : Ledger) : (L ++ L').depths = L.depths ++ L'.depths := by
  rw [depths, List.reduceOption_append, List.map_append]
  rfl

/-- The entries of references have the distances among their notes. -/
theorem Event.map_depth_entries (es : List (Event Hops)) : (entries es).map (·.depth) = (notes es).depths := by
  induction es with
  | nil => rfl
  | cons e es ih =>
    cases e with
    | enter | leave | declare => exact ih
    | refer kind r =>
      obtain ⟨name, note⟩ := r
      cases note with
      | none => exact ih
      | some d => exact congrArg ((d : Int) :: ·) ih

/-- Filing a resolved program enters the distances of its entries in the table, behind those that are in the ledger. -/
theorem resolve_enters {program : List SourceStmt} (hformed : Stmt.AllFormed Token.Spelled program) (L : Ledger) :
    ((Stmt.fileAll (resolve program).1).run L).2.depths
      = L.depths ++ (resolve program).2.entries.map (·.depth) := by
  have hfiled := (Stmt.fileAll_numbers (resolve program).1 L).1
  have htold := resolve_records hformed
  rw [hfiled, Ledger.depths_append, htold.entries, Event.map_depth_entries]

end LoxLang
