import LoxLang.Proofs.Filing.Entries
import LoxLang.Proofs.Filing.Viewed
import LoxLang.Proofs.Run.Sessions

/-!
# Sessions with a ledger

A session can keep its code filed, with one ledger for all of its programs. A program that the resolver rejects has been
filed then, and its distances stay in the ledger, before those of the programs that follow.

* **`FiledSession.serve`** — one step of such a session.
* **`FiledSession.StandsFor`** — the session whose code has its distances in place.
* **`FiledSession.StandsFor.serve`** — both do the same.
-/

namespace LoxLang

/-! ## Runs under a ledger

A machine whose code is filed does under the ledger what the machine with the distances in place does. -/

/-- All code on a machine means what it does, and has its places in the ledger. -/
theorem Ledger.means_machine {m m₀ : Machine} {L : Ledger} (hread : m.mapNotes L.read = m₀)
    (hwithin : m.mapNotes (within L.length) = m) : Means Machine.mapNotes m₀ m L := by
  rintro L' ⟨new, rfl⟩
  -- what the machine has no places for makes no difference
  constructor
  · rw [← hread, ← hwithin, Machine.mapNotes_mapNotes, Machine.mapNotes_mapNotes]
    exact congrArg (m.mapNotes ·) (funext fun note => (L.read_append_within new note).trans (L.read_within note).symm)
  · have hle : L.length ≤ (L ++ new).length := (List.prefix_append L new).length_le
    rw [← hwithin, Machine.mapNotes_mapNotes]
    exact congrArg (m.mapNotes ·) (funext (within_within hle))

/-- Filed code under the ledger does what the code does. -/
theorem Machine.runViewed_means (settings : Settings) {L : Ledger} {m m₀ : Machine}
    {program program₀ : List (Stmt Hops)} (hm : L.Means Machine.mapNotes m₀ m)
    (hprogram : L.Means Stmt.mapAllNotes program₀ program) :
    (m.runViewed settings L.read program).1 = (m₀.run settings program₀).1 ∧
      L.Means Machine.mapNotes (m₀.run settings program₀).2 (m.runViewed settings L.read program).2 := by
  obtain ⟨hread, hwithin⟩ := hm L List.prefix_rfl
  obtain ⟨hread', hwithin'⟩ := hprogram L List.prefix_rfl
  have hview : ∀ note, id (L.read note) = L.read note := fun _ => rfl
  have hmeant := m.runViewed_mapNotes hview settings program
  rw [hread, hread', Machine.runViewed_id] at hmeant
  -- the places that are outside of the ledger may be forgotten before the run or behind it
  have hforgotten := m.runViewed_mapNotes L.read_within settings program
  rw [hwithin, hwithin'] at hforgotten
  rw [hmeant]
  exact ⟨rfl, Ledger.means_machine rfl (congrArg Prod.snd hforgotten).symm⟩

/-- There is no code on a machine that has run nothing. -/
theorem Machine.mapNotes_initial (f : View) : Machine.initial.mapNotes f = .initial := by
  have hcells : #[Cell.frame [("clock", .clock)]].map (·.mapValues (·.mapNotes f))
      = #[Cell.frame [("clock", .clock)]] := List.map_toArray
  exact congrArg (fun cells => { Machine.initial with heap := ⟨cells⟩ : Machine }) hcells

/-! ## Steps

The steps of a session, but with filed code. What has been filed stays in the ledger whatever becomes of the program. -/

/-- A session whose code is filed. -/
structure FiledSession where
  machine : Machine
  ledger : Ledger
  log : Log

namespace FiledSession

/-- A session that has run nothing. -/
def initial : FiledSession :=
  ⟨.initial, [], .empty⟩

/-- Forgets the diagnostics. -/
def resetLog (t : FiledSession) : FiledSession :=
  { t with log := .empty }

/-- Adds diagnostics to the log. -/
def report (t : FiledSession) (ds : List Diagnostic) : FiledSession :=
  { t with log := t.log.append ds }

/-- Executes a filed program. -/
def execute (settings : Settings) (program : List (Stmt Hops)) (t : FiledSession) : Option Stop × FiledSession :=
  let ⟨machine, ledger, log⟩ := t
  match machine.runViewed settings ledger.read program with
  | (some (.error d), machine) => (none, ⟨machine, ledger, log.report d⟩)
  | (stop?, machine) => (stop?, ⟨machine, ledger, log⟩)

/-- Runs a program up to an artifact, or to the end. What the resolver has found is entered in the ledger, whatever
becomes of the program then. -/
def step (settings : Settings) (stopAfter : Option ArtifactName) (source : String) (t : FiledSession) :
    Option Stop × FiledSession :=
  let t := t.report (scan source).diagnostics
  if stopAfter = some .tokens then (none, t)
  else
    match parse (scan source).tokens with
    | none => (some (.fault .absent), t)
    | some ⟨program, diagnostics⟩ =>
      let t := t.report diagnostics
      if t.log.hadError ∨ stopAfter = some .ast then (none, t)
      else
        let (resolved, found) := resolve program
        let filing := (Stmt.fileAll resolved).run t.ledger
        let t := { t.report found.diagnostics with ledger := filing.2 }
        if let some fault := found.fault? then (some (.fault fault), t)
        else if t.log.hadError ∨ stopAfter = some .resolution then (none, t)
        else t.execute settings filing.1

/-- The step for a request. -/
def serve (t : FiledSession) (r : Request) : Option Stop × FiledSession :=
  (if r.resets then t.resetLog else t).step r.settings r.stopAfter r.source

/-- The session after requests in their order. -/
def after (t : FiledSession) (requests : List Request) : FiledSession :=
  requests.foldl (fun t r => (t.serve r).2) t

/-! ### What a session stands for

The relation between the two sessions is kept step by step, and so both answer the same. -/

/-- The session with the distances in place. Its table has the distances of the ledger. -/
structure StandsFor (t : FiledSession) (s : Session) : Prop where
  machine : t.ledger.Means Machine.mapNotes s.machine t.machine
  table : s.table.map (·.depth) = t.ledger.depths
  log : s.log = t.log

theorem standsFor_initial : initial.StandsFor .initial :=
  ⟨Ledger.means_machine (Machine.mapNotes_initial _) (Machine.mapNotes_initial _), rfl, rfl⟩

variable {t : FiledSession} {s : Session}

/-- Logs are the same on both sides. -/
theorem StandsFor.resetLog (h : t.StandsFor s) : t.resetLog.StandsFor s.resetLog :=
  ⟨h.machine, h.table, rfl⟩

theorem StandsFor.report (h : t.StandsFor s) (ds : List Diagnostic) : (t.report ds).StandsFor (s.report ds) :=
  ⟨h.machine, h.table, congrArg (·.append ds) h.log⟩

/-- The filed program does what the program does. -/
theorem StandsFor.execute (h : t.StandsFor s) (settings : Settings) {program program₀ : List (Stmt Hops)}
    (hprogram : t.ledger.Means Stmt.mapAllNotes program₀ program) :
    (t.execute settings program).1 = (s.execute settings program₀).1 ∧
      (t.execute settings program).2.StandsFor (s.execute settings program₀).2 := by
  obtain ⟨m, ledger, log⟩ := t
  obtain ⟨m₀, table, log⟩ := s
  obtain ⟨hmachine, htable, rfl⟩ := h
  obtain ⟨hstop, hmachine'⟩ := Machine.runViewed_means settings hmachine hprogram
  unfold FiledSession.execute Session.execute
  dsimp only at hstop hmachine' ⊢
  rcases hrun : m.runViewed settings ledger.read program with ⟨stop?, m'⟩
  rcases hrun₀ : m₀.run settings program₀ with ⟨stop₀?, m₀'⟩
  rw [hrun, hrun₀] at hstop hmachine'
  obtain rfl : stop? = stop₀? := hstop
  match stop? with
  | none | some (.error d) | some (.fault f) | some .tooDeep | some .tooLong =>
    exact ⟨rfl, hmachine', htable, rfl⟩

/-- If one session stands for the other, then it does so after the same request. -/
theorem StandsFor.step (h : t.StandsFor s) (settings : Settings) (wantsTable : Bool)
    (stopAfter : Option ArtifactName) (source : String) :
    (t.step settings stopAfter source).1 = (s.step settings wantsTable stopAfter source).stop? ∧
      (t.step settings stopAfter source).2.StandsFor (s.step settings wantsTable stopAfter source).session := by
  obtain ⟨program, ds, hparse, hformed⟩ := parse_scan source
  obtain ⟨hfault, -⟩ := resolve_scoped false hformed fun heq => by cases heq
  have hscanned := h.report (scan source).diagnostics
  have hparsed := hscanned.report ds
  -- the program is filed behind what is in the ledger already
  obtain ⟨hle, hprogram⟩ := Stmt.fileAll_files (resolve program).1 t.ledger
  have hresolved : StandsFor
      { (t.report (scan source).diagnostics).report ds |>.report (resolve program).2.diagnostics with
        ledger := ((Stmt.fileAll (resolve program).1).run t.ledger).2 }
      { (s.report (scan source).diagnostics).report ds |>.report (resolve program).2.diagnostics with
        table := s.table ++ (resolve program).2.entries } := by
    refine ⟨h.machine.mono hle, ?_, (hparsed.report _).log⟩
    show (s.table ++ _).map _ = Ledger.depths (((Stmt.fileAll _).run t.ledger).2)
    rw [List.map_append, h.table, resolve_enters hformed]
  unfold FiledSession.step Session.step
  dsimp only
  split
  · exact ⟨rfl, hscanned⟩
  rw [hparse]
  dsimp only
  rw [hfault, hparsed.log]
  split
  · exact ⟨rfl, hparsed⟩
  -- the logs of both are the same, so that both end here or neither
  dsimp only
  have hlog := hresolved.log
  split
  next hend =>
    rw [if_pos (hlog ▸ hend)]
    exact ⟨rfl, hresolved⟩
  next hend =>
    rw [if_neg (hlog ▸ hend)]
    exact hresolved.execute settings hprogram

/-- A request is a step with settings of its own. -/
theorem StandsFor.serve (h : t.StandsFor s) (r : Request) :
    (t.serve r).1 = (s.serve r).stop? ∧ (t.serve r).2.StandsFor (s.serve r).session := by
  unfold FiledSession.serve Session.serve
  cases r.resets
  · exact h.step _ _ _ _
  · exact h.resetLog.step _ _ _ _

end FiledSession

end LoxLang
