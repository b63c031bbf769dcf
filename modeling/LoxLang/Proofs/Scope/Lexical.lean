import LoxLang.Proofs.Filing.Places
import LoxLang.Proofs.Lines.Resolver
import LoxLang.Proofs.Run.Sessions
import LoxLang.Proofs.Scope.Distances

/-!
# The table of distances

The distances of a program are those of its text: they can be read off the scopes that are open at each reference. They
are entered once for each reference, behind whatever the table holds, and each statement gets the entries and the
complaints that it would get alone.

* **`Lexical`** — what this means for a program.
* **`Session.step_table`** — what a step of a session adds to the table.
* **`distances_are_lexical`** — so it is for every source.
-/

namespace LoxLang

open Event

/-! ## Lexical distances

What was shown of walks is put into the words of the text: which scopes are open, and which of them has declared the
name by then. -/

/-- Some scope declares a name if and only if one of them is the nearest that does. -/
theorem Scopes.exists_nearest_iff (S : Scopes) (name : String) :
    (∃ d, S.Nearest name d) ↔ ∃ scope ∈ S, name ∈ scope := by
  simp only [← hops_eq_some_iff, ← Option.isSome_iff_exists, hops, List.findIdx?_isSome, List.any_eq_true,
    List.contains_eq_mem, decide_eq_true_eq]

/-- The resolver gives each reference in a program its lexical distance, in an entry of its own, and resolves each
statement for itself. -/
structure Lexical (program : List SourceStmt) : Prop where
  /-- Nothing but the notes is new in the resolved program. -/
  tree : Stmt.erasedAll (resolve program).1 = Stmt.erasedAll program
  /-- A reference is local if a scope that is open there has declared its name by then. -/
  recorded : ∀ past kind r later, Stmt.eventsAll (resolve program).1 = past ++ .refer kind r :: later →
    ((∃ d, r.note = some d) ↔ ∃ scope ∈ Scopes.after [] past, r.name.lexeme ∈ scope)
  /-- Its distance is the number of scopes that have been opened inside the nearest such one. -/
  nearest : ∀ past kind r later, Stmt.eventsAll (resolve program).1 = past ++ .refer kind r :: later →
    ∀ d, r.note = some d ↔ (Scopes.after [] past).Nearest r.name.lexeme d
  /-- The table gets an entry for each local reference, in their order, and no others. -/
  entries : (resolve program).2.entries = Event.entries (Stmt.eventsAll (resolve program).1)
  /-- By reference, the entries have places of their own behind all older ones, which stay as they are. -/
  places : ∀ L : Ledger,
    let notes := Event.notes (Stmt.eventsAll (resolve program).1)
    let (filed, L') := (Stmt.fileAll (resolve program).1).run L
    L' = L ++ notes ∧ Event.notes (Stmt.eventsAll filed) = Ledger.places L.length notes.length
  /-- What is entered at these places is what the references mean, whatever is entered later. -/
  kept : ∀ L later : Ledger,
    let (filed, L') := (Stmt.fileAll (resolve program).1).run L
    Stmt.mapAllNotes (L' ++ later).read filed = (resolve program).1
  /-- Each statement is resolved as if there were no others. -/
  alone : (resolve program).1 = program.flatMap fun s => (resolve [s]).1
  entries_alone : (resolve program).2.entries = program.flatMap fun s => (resolve [s]).2.entries
  diagnostics_alone : (resolve program).2.diagnostics = program.flatMap fun s => (resolve [s]).2.diagnostics

section

variable {P : Token → Prop}

/-- The statements of a program are resolved one by one. -/
theorem resolve_flatMap {program : List SourceStmt} (hformed : Stmt.AllFormed P program) :
    ((resolve program).1 = program.flatMap fun s => (resolve [s]).1) ∧
      ((resolve program).2.entries = program.flatMap fun s => (resolve [s]).2.entries) ∧
        (resolve program).2.diagnostics = program.flatMap fun s => (resolve [s]).2.diagnostics := by
  induction program with
  | nil => exact ⟨rfl, rfl, rfl⟩
  | cons s program ih =>
    obtain ⟨hs, hprogram⟩ := hformed
    have hone : Stmt.AllFormed P [s] := ⟨hs, trivial⟩
    obtain ⟨hresolved, hentries, hdiagnostics⟩ := resolve_append hone hprogram
    obtain ⟨ihresolved, ihentries, ihdiagnostics⟩ := ih hprogram
    rw [List.singleton_append] at hresolved hentries hdiagnostics
    refine ⟨?_, ?_, ?_⟩
    · rw [hresolved, ihresolved, List.flatMap_cons]
    · rw [hentries, ihentries, List.flatMap_cons]
    · rw [hdiagnostics, ihdiagnostics, List.flatMap_cons]

end

/-- So it is for every well-formed program, whether or not there are complaints. -/
theorem lexical_of_formed {program : List SourceStmt} (hformed : Stmt.AllFormed Token.Spelled program) :
    Lexical program := by
  have htold := resolve_records hformed
  obtain ⟨halone, hentries, hdiagnostics⟩ := resolve_flatMap hformed
  constructor
  case tree => exact resolve_erased program
  case recorded =>
    intro past kind r later hevents
    rw [← Scopes.exists_nearest_iff]
    exact exists_congr (htold.noted.nearest hevents)
  case nearest => exact fun past kind r later hevents => htold.noted.nearest hevents
  case entries => exact htold.entries
  case places => exact Stmt.fileAll_numbers _
  case kept =>
    intro L later
    obtain ⟨-, hmeans⟩ := Stmt.fileAll_files (resolve program).1 L
    exact (hmeans _ (List.prefix_append _ later)).1
  case alone => exact halone
  case entries_alone => exact hentries
  case diagnostics_alone => exact hdiagnostics

/-! ## Sessions

The table is never cleared. A step puts the entries of its program behind those of the others, or none if it was
rejected. -/

/-- A step adds to the table what the resolver has found, if it gets so far, whether the program is executed or not. -/
theorem Session.step_table {source : String} {parsed : Parsed} (hparse : parse (scan source).tokens = some parsed)
    (settings : Settings) (wantsTable : Bool) (stopAfter : Option ArtifactName) (s : Session) :
    (s.step settings wantsTable stopAfter source).session.table =
      s.table ++
        if stopAfter = some .tokens ∨ stopAfter = some .ast ∨
            ((s.report (scan source).diagnostics).report parsed.diagnostics).log.hadError then []
        else (resolve parsed.program).2.entries := by
  have hadvances := s.step_advances settings wantsTable stopAfter hparse
  generalize (s.step settings wantsTable stopAfter source).session = s' at hadvances ⊢
  -- the cases are the stages at which a step may end; the table is written when the resolver is through
  cases hadvances with
  | scanned htokens =>
    rw [if_pos (.inl htokens)]
    exact (List.append_nil _).symm
  | parsed hends =>
    rw [if_pos (.inr hends.symm)]
    exact (List.append_nil _).symm
  | resolved htokens hparsed =>
    rw [if_neg (not_or.mpr ⟨htokens, fun h => hparsed h.symm⟩)]
    rfl
  | executed htokens hparsed hresolved =>
    rw [if_neg (not_or.mpr ⟨htokens, fun h => hparsed h.symm⟩), Session.table_execute]
    rfl

/-- Of every source a program can be read. Its distances are lexical, and a session has them behind those of the
programs before. -/
theorem distances_are_lexical (source : String) :
    ∃ parsed, parse (scan source).tokens = some parsed ∧ Lexical parsed.program ∧
      ∀ (settings : Settings) (wantsTable : Bool) (stopAfter : Option ArtifactName) (s : Session),
        (s.step settings wantsTable stopAfter source).session.table =
          s.table ++
            if stopAfter = some .tokens ∨ stopAfter = some .ast ∨
                ((s.report (scan source).diagnostics).report parsed.diagnostics).log.hadError then []
            else (resolve parsed.program).2.entries := by
  obtain ⟨program, ds, hparse, hformed⟩ := parse_scan source
  exact ⟨⟨program, ds⟩, hparse, lexical_of_formed hformed, Session.step_table hparse⟩

set_option maxRecDepth 4096 in
/-- Equal references have distances of their own. -/
example :
    (parse (scan "\x7b var a; print a; \x7b print a; \x7d \x7d").tokens).map
      (fun parsed => (resolve parsed.program).2.entries.map (·.depth)) = some [0, 1] := by cbv

end LoxLang
