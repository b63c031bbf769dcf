import LoxLang.Proofs.Lineage.Evaluator
import LoxLang.Proofs.Session.Gating

/-!
# The heap of a session is well-founded

A session runs programs one after the other, resolved or not. Its heap only grows, and each link in it leads from what
is younger to what is older: from a frame to the one around it, from a class to its superclass, from a function to the
frame it was declared in. A name may be bound to another class or function later, but then it is the binding that
changes, not a link.

* **`Machine.Searchable`** — looks for variables and methods are walks along links, and come to an end.
* **`Session.Founded`** — a session all of whose machines have beginnings of one lineage.
* **`heap_well_founded`** — so it is with every session.
-/

namespace LoxLang

/-! ## Turns

What is shown here needs no resolver, so a session may run some of its programs without one. -/

/-- A request to a session, with or without the resolver. -/
structure Turn extends Request where
  resolves : Bool

/-- The program of a turn, as it is executed if it is. -/
def Turn.program (t : Turn) : List (Stmt Hops) :=
  match parse (scan t.source).tokens with
  | none => []
  | some parsed => if t.resolves then (resolve parsed.program).1 else Stmt.mapAllNotes (fun _ => none) parsed.program

namespace Session

/-- The session of a turn before anything is done: the diagnostics so far may be forgotten. -/
def begun (s : Session) (t : Turn) : Session :=
  if t.resets then s.resetLog else s

/-- The step for a turn. -/
def take (s : Session) (t : Turn) : Step :=
  if t.resolves then s.serve t.toRequest else (s.begun t).stepUnresolved t.settings t.source

/-- The session after turns in their order. -/
def afterTurns (s : Session) (turns : List Turn) : Session :=
  turns.foldl (fun s t => (s.take t).session) s

@[simp] theorem afterTurns_nil (s : Session) : s.afterTurns [] = s := rfl

@[simp] theorem afterTurns_cons (s : Session) (t : Turn) (turns : List Turn) :
    s.afterTurns (t :: turns) = (s.take t).session.afterTurns turns := rfl

/-- To begin a turn is to reset the log at most. -/
@[simp] theorem machine_begun (s : Session) (t : Turn) : (s.begun t).machine = s.machine := by
  rw [begun]
  split <;> rfl

end Session

/-- A report that no variable has the name. -/
def Diagnostic.Misses (d : Diagnostic) (name : String) : Prop :=
  ∃ token, d = .ofToken .runtime (.undefinedVariable name) token

/-! ### What a turn does

Whatever stage a turn ends at, it runs its program on the machine or leaves the machine alone; and of what it reports,
all but the last was said before the run. -/

/-- Diagnostics from before a run. -/
def Diagnostic.Static (ds : List Diagnostic) : Prop :=
  ∀ d ∈ ds, d.stage ≠ .runtime

/-- Diagnostics of one stage that is not the run. -/
theorem Diagnostic.Static.of_stage {ds : List Diagnostic} {stage : Stage} (hds : ∀ d ∈ ds, d.stage = stage)
    (hstage : stage ≠ .runtime) : Static ds := by
  intro d hd
  rwa [hds d hd]

theorem Diagnostic.Static.append {ds ds' : List Diagnostic} (h : Static ds) (h' : Static ds') :
    Static (ds ++ ds') :=
  List.forall_mem_append.mpr ⟨h, h'⟩

namespace Session

/-- One session comes from another: the machine is left alone, or a program is run on it. What the run reports comes
behind the diagnostics of earlier stages. -/
def Turned (settings : Settings) (program : List (Stmt Hops)) (s s' : Session) : Prop :=
  ∃ ds, Diagnostic.Static ds ∧
    (s'.machine = s.machine ∧ s'.log.diagnostics = s.log.diagnostics ++ ds ∨
      s'.machine = (s.machine.run settings program).2 ∧
        s'.log.diagnostics = s.log.diagnostics ++ (ds ++ Stop.reports (s.machine.run settings program).1))

section

variable {settings : Settings} {program : List (Stmt Hops)} {s s' : Session} {ds : List Diagnostic}

theorem Turned.idle (hds : Diagnostic.Static ds) (hmachine : s'.machine = s.machine)
    (hlog : s'.log.diagnostics = s.log.diagnostics ++ ds) : Turned settings program s s' :=
  ⟨ds, hds, .inl ⟨hmachine, hlog⟩⟩

theorem Turned.execute (hds : Diagnostic.Static ds) (hmachine : s'.machine = s.machine)
    (hlog : s'.log.diagnostics = s.log.diagnostics ++ ds) :
    Turned settings program s (s'.execute settings program).2 := by
  refine ⟨ds, hds, .inr ⟨?_, ?_⟩⟩
  · rw [machine_execute, hmachine]
  · rw [diagnostics_execute, hmachine, hlog, List.append_assoc]

end

/-- Reports are put at the end of the log. -/
theorem diagnostics_report (s : Session) (ds : List Diagnostic) :
    (s.report ds).log.diagnostics = s.log.diagnostics ++ ds :=
  Log.diagnostics_append s.log ds

/-- A request that is resolved before it runs leaves a machine whose links are those of a longer lineage. -/
theorem step_turned (settings : Settings) (wantsTable : Bool) (stopAfter : Option ArtifactName) {source : String}
    {parsed : Parsed} (hparse : parse (scan source).tokens = some parsed) (s : Session) :
    Turned settings (resolve parsed.program).1 s (s.step settings wantsTable stopAfter source).session := by
  -- what each stage adds to the log comes from that stage, and none of them runs anything
  have hscan := Diagnostic.Static.of_stage (scan_stage source) (by decide)
  have hparsed := hscan.append (.of_stage (parse_stage hparse) (by decide))
  have hresolved := hparsed.append (.of_stage (resolve_stage hparse) (by decide))
  have hlog : ((s.report (scan source).diagnostics).report parsed.diagnostics).log.diagnostics
      = s.log.diagnostics ++ ((scan source).diagnostics ++ parsed.diagnostics) := by
    rw [diagnostics_report, diagnostics_report, List.append_assoc]
  have hlog' : (((s.report (scan source).diagnostics).report parsed.diagnostics).enter
        (resolve parsed.program).2).log.diagnostics
      = s.log.diagnostics ++ ((scan source).diagnostics ++ parsed.diagnostics
        ++ (resolve parsed.program).2.diagnostics) := by
    rw [enter, diagnostics_report, hlog, List.append_assoc]
  have hadvances := s.step_advances settings wantsTable stopAfter hparse
  generalize (s.step settings wantsTable stopAfter source).session = s' at hadvances ⊢
  -- one case for the stage that the step ends with
  cases hadvances with
  | scanned => exact .idle hscan rfl (s.diagnostics_report _)
  | parsed => exact .idle hparsed rfl hlog
  | resolved => exact .idle hresolved rfl hlog'
  | executed => exact .execute hresolved rfl hlog'

theorem stepUnresolved_turned (settings : Settings) {source : String} {parsed : Parsed}
    (hparse : parse (scan source).tokens = some parsed) (s : Session) :
    Turned settings (Stmt.mapAllNotes (fun _ => none) parsed.program) s
      (s.stepUnresolved settings source).session := by
  obtain ⟨program, ds⟩ := parsed
  have hscan := Diagnostic.Static.of_stage (scan_stage source) (by decide)
  have hparsed := hscan.append (.of_stage (parse_stage hparse) (by decide))
  unfold stepUnresolved
  dsimp only
  rw [hparse]
  refine .execute hparsed rfl ?_
  rw [diagnostics_report, diagnostics_report, List.append_assoc]

theorem take_turned (s : Session) (t : Turn) : Turned t.settings t.program (s.begun t) (s.take t).session := by
  obtain ⟨program, ds, hparse, -⟩ := parse_scan t.source
  unfold take Turn.program
  rw [hparse]
  dsimp only
  split
  · exact step_turned t.settings t.wantsTable t.stopAfter hparse _
  · exact stepUnresolved_turned t.settings hparse _

end Session

/-! ## Searches

Searches are shown to end on every machine that is met, not only on those between two turns. -/

/-- Each look for a variable or a method, from any frame and any class that is there, is a walk along links. -/
structure Machine.Searchable (L : Lineage) (m : Machine) : Prop where
  /-- What `m` is in is a frame with the frames around it, and so is each frame. -/
  environment : L.Sees m.environment
  frames : ∀ a, m.heap.IsFrame a ↔ a < m.heap.cells.size ∧ ∃ around, L[a]? = some (.frame around)
  get? : ∀ a around, L[a]? = some (.frame around) → ∀ name,
    Searches L.enclosing (fun a => (m.heap.vars a).get? name) a (Environment.get? (a :: around) m.heap name)
  holder? : ∀ a around, L[a]? = some (.frame around) → ∀ name,
    Searches L.enclosing (Option.guard fun a => ((m.heap.vars a).get? name).isSome) a
      (Environment.holder? (a :: around) m.heap name)
  findMethod? : ∀ c, L.Knows (.classValue c) → ∀ name,
    Searches L.superclass (fun a => (L.methods a).get? name) c.own.address (c.findMethod? name)
  /-- Whatever is bound to a name or a field was allocated as it is. -/
  vars : ∀ a name v, (m.heap.vars a).get? name = some v → L.Knows v
  fields : ∀ a name v, (m.heap.fields a).get? name = some v → L.Knows v

/-- A machine that is met has links as the whole lineage says. -/
theorem Machine.During.searchable {L : Lineage} (hL : L.Ordered) {m : Machine} {h h' : Heap} (hm : m.During L h h') :
    m.Searchable L := by
  have hkept : L.take m.heap.cells.size <+: L := List.take_prefix _ L
  have hheap := hm.descends.heap
  -- each search on the machine is one along the lineage, cut off at the size of the heap
  constructor
  case environment => exact hm.descends.environment.mono hkept
  case frames =>
    intro a
    rw [hheap.isFrame_iff]
    constructor
    · rintro ⟨around, ha⟩
      exact ⟨Lineage.lt_of_take ha, around, Lineage.kept hkept ha⟩
    · rintro ⟨hlt, around, ha⟩
      exact ⟨around, by rwa [List.getElem?_take_of_lt hlt]⟩
  case get? => exact fun a around ha name => Lineage.searches_environment hL _ ha
  case holder? =>
    intro a around ha name
    rw [Environment.holder?, ← List.findSome?_guard]
    exact Lineage.searches_environment hL _ ha
  case findMethod? => exact fun c hc name => Lineage.searches_methods hL name hc
  case vars => exact fun a name v hv => (hheap.vars hv).mono hkept
  case fields => exact fun a name v hv => (hheap.fields hv).mono hkept

/-! ## Sessions

By induction on the turns. The first one leaves a lineage, and the others continue it. -/

namespace Session

/-- Turns of a session whose machines all have beginnings of one lineage, on heaps that only grow. -/
structure Founded (L : Lineage) (s : Session) (turns : List Turn) : Prop where
  /-- The machine between any two turns. -/
  between : ∀ earlier later, turns = earlier ++ later →
    (s.afterTurns earlier).machine.During L s.machine.heap (s.afterTurns turns).machine.heap
  /-- The machines at all nodes that a turn visits: a check that succeeds on all machines with beginnings of the
  lineage does not fail. -/
  within : ∀ earlier t later, turns = earlier ++ t :: later →
    let before := (s.afterTurns earlier).machine
    let after := (s.afterTurns (earlier ++ [t])).machine
    after = before ∨
      after = (before.run t.settings t.program).2 ∧
        ∀ check : Machine → Bool, (∀ m, m.During L before.heap after.heap → check m = true) →
          before.runChecked t.settings check t.program = before.run t.settings t.program
  /-- No frame loses a name from one turn to a later one. -/
  names : ∀ earlier between later, turns = earlier ++ (between ++ later) →
    (s.afterTurns earlier).machine.heap.Le (s.afterTurns (earlier ++ between)).machine.heap

variable {L : Lineage} {s : Session}

/-- What a turn leaves, and what it meets on the way. It does not report that a name is missing which the globals
have in the end. -/
theorem take_founded (hs : s.machine.Descends L) (t : Turn) :
    ∃ L', s.machine.Evolves L L' (s.take t).session.machine ∧
      ((s.take t).session.machine = s.machine ∨
        (s.take t).session.machine = (s.machine.run t.settings t.program).2 ∧
          ∀ check : Machine → Bool,
            (∀ m, m.During L' s.machine.heap (s.take t).session.machine.heap → check m = true) →
              s.machine.runChecked t.settings check t.program = s.machine.run t.settings t.program) ∧
      ∃ new, (s.take t).session.log.diagnostics = (s.begun t).log.diagnostics ++ new ∧
        ∀ d ∈ new, ∀ name, d.Misses name → ¬ (s.take t).session.machine.heap.Binds 0 name := by
  -- what is reported before the run never says that a name is missing
  have hstatic : ∀ {ds}, Diagnostic.Static ds → ∀ d ∈ ds, ∀ name, ¬ d.Misses name := by
    rintro ds hds d hd name ⟨token, rfl⟩
    exact hds _ hd rfl
  obtain ⟨ds, hds, hturned⟩ := s.take_turned t
  rw [machine_begun] at hturned
  rcases hturned with ⟨hmachine, hlog⟩ | ⟨hmachine, hlog⟩
  · rw [hmachine]
    exact ⟨L, .refl hs, .inl rfl, ds, hlog, fun d hd name hmisses => absurd hmisses (hstatic hds d hd name)⟩
  · obtain ⟨L', hev, hstop, hcheck⟩ := Machine.run_orderly t.settings t.program hs
    rw [hmachine]
    refine ⟨L', hev, .inr ⟨rfl, hcheck⟩, _, hlog, fun d hd name hmisses => ?_⟩
    rcases List.mem_append.mp hd with hd | hd
    · exact absurd hmisses (hstatic hds d hd name)
    · -- a report of the run is the mistake that has stopped it
      revert hstop hd
      rcases (s.machine.run t.settings t.program).1 with _ | (d' | _ | _ | _)
      · exact fun _ hd => absurd hd List.not_mem_nil
      · intro hstop hd
        obtain rfl := List.mem_singleton.mp hd
        obtain ⟨token, rfl⟩ := hmisses
        exact hstop _ rfl name ⟨token, rfl⟩
      all_goals exact fun _ hd => absurd hd List.not_mem_nil

/-- After any number of requests, resolved or not, every chain of frames and of superclasses ends. -/
theorem afterTurns_founded (hs : s.machine.Descends L) (turns : List Turn) :
    ∃ L', s.machine.Evolves L L' (s.afterTurns turns).machine ∧ s.Founded L' turns := by
  induction turns generalizing s L with
  | nil =>
    refine ⟨L, .refl hs, ?_, ?_, ?_⟩
    · intro earlier later hturns
      obtain ⟨rfl, rfl⟩ := List.append_eq_nil_iff.mp hturns.symm
      exact hs.during List.prefix_rfl (.refl _)
    · intro earlier t later hturns
      cases earlier <;> cases hturns
    · intro earlier between later hturns
      obtain ⟨rfl, hrest⟩ := List.append_eq_nil_iff.mp hturns.symm
      obtain ⟨rfl, rfl⟩ := List.append_eq_nil_iff.mp hrest
      exact .refl _
  | cons t turns ih =>
    obtain ⟨L₁, hev, hfirst, -⟩ := take_founded hs t
    obtain ⟨L₂, hev', hrest⟩ := ih hev.descends
    refine ⟨L₂, hev.trans hev', ?_, ?_, ?_⟩
    · intro earlier later hturns
      cases earlier with
      | nil => exact hs.during (hev.trans hev').kept (hev.trans hev').le
      | cons t' earlier =>
        cases hturns
        exact (hrest.between earlier later rfl).after hev.le
    · intro earlier t' later hturns
      cases earlier with
      | nil =>
        cases hturns
        refine hfirst.imp_right fun hrun => ⟨hrun.1, fun check hall => ?_⟩
        exact hrun.2 check fun m hm => hall m (hm.mono hev'.kept (.refl _))
      | cons t'' earlier =>
        cases hturns
        exact hrest.within earlier t' later rfl
    · intro earlier between later hturns
      cases earlier with
      | nil =>
        -- from the first turn on: to itself, or by way of what is left after it
        cases between with
        | nil => exact .refl _
        | cons t' between =>
          cases hturns
          exact hev.le.trans (hrest.names [] between later rfl)
      | cons t' earlier =>
        cases hturns
        exact hrest.names earlier between later rfl

end Session

/-- A session with a well-founded heap. -/
structure Session.WellFounded (L : Lineage) (turns : List Turn) : Prop extends initial.Founded L turns where
  /-- Links lead to what was allocated before. -/
  enclosing_lt : ∀ a a', L.enclosing a = some a' → a' < a
  superclass_lt : ∀ a a', L.superclass a = some a' → a' < a
  closure_lt : ∀ a a', L.closure a = some a' → a' < a
  /-- From every frame and every class of a machine that is met, looks are walks along links. -/
  searchable : ∀ (m : Machine) h h', m.During L h h' → m.Searchable L
  /-- Walks along links come to an end, from everywhere and whatever is looked for. -/
  enclosing_end : ∀ {α : Type} (look : Address → Option α) a, ∃! result, Searches L.enclosing look a result
  superclass_end : ∀ {α : Type} (look : Address → Option α) a, ∃! result, Searches L.superclass look a result
  /-- On a machine that is met no frame loses a name, whatever is evaluated or executed. -/
  grows : ∀ (m : Machine) h h', m.During L h h' → ∀ settings n,
    (∀ e, m.heap.Le (evaluateNested settings n e m).2.heap) ∧ ∀ s, m.heap.Le (executeNested settings n s m).2.heap
  /-- A name that is among the globals once is not reported missing in any later turn. -/
  defined : ∀ earlier between t later, turns = earlier ++ (between ++ t :: later) → ∀ name,
    (initial.afterTurns earlier).machine.heap.Binds 0 name →
      let s := initial.afterTurns (earlier ++ between)
      ∃ new, (s.take t).session.log.diagnostics = (s.begun t).log.diagnostics ++ new ∧ ∀ d ∈ new, ¬ d.Misses name

/-- **The heap stays well-founded.** Whatever programs a session runs one after the other, with the resolver or without
it, and whatever they are stopped for, there is one lineage for all of it. On each machine between two turns, and at
each node that is visited in a turn, a beginning of it says what is on the machine. So links never change, and they lead
to older things only, however names are bound anew. Looks for variables and methods follow them and come to an end. No
frame loses a name, so that a global that was defined is never again reported undefined. -/
theorem heap_well_founded (turns : List Turn) : ∃ L, Session.WellFounded L turns := by
  have hinitial : Session.initial.machine.Descends [.frame []] := Machine.descends_initial
  -- the lineage of the whole session; each machine in it knows a beginning of this one
  obtain ⟨L, hev, hfounded⟩ := Session.afterTurns_founded hinitial turns
  have hL : L.Ordered := hev.descends.heap.ordered
  refine ⟨L, {
    toFounded := hfounded
    enclosing_lt := fun _ _ => hL.enclosing_lt
    superclass_lt := fun _ _ => hL.superclass_lt
    closure_lt := fun _ _ => hL.closure_lt
    searchable := fun m h h' hm => hm.searchable hL
    enclosing_end := searches_end fun _ _ => hL.enclosing_lt
    superclass_end := searches_end fun _ _ => hL.superclass_lt
    grows := ?grows
    defined := ?defined }⟩
  case grows =>
    intro m h h' hm settings n
    have hrun := nested_orderly settings n
    refine ⟨fun e => ?_, fun s => ?_⟩
    · obtain ⟨L', hev', -⟩ := hrun.evaluate e hm.descends
      exact hev'.le
    · obtain ⟨L', hev', -⟩ := hrun.execute s hm.descends
      exact hev'.le
  case defined =>
    intro earlier between t later hturns name hbinds
    have hmet := hfounded.between (earlier ++ between) (t :: later) (by rw [hturns, List.append_assoc])
    obtain ⟨L', hev', -, new, hlog, hnew⟩ := Session.take_founded hmet.descends t
    have hle := (hfounded.names earlier between (t :: later) hturns).trans hev'.le
    exact ⟨new, hlog, fun d hd hmisses => hnew d hd name hmisses (hle.bindings hbinds)⟩

/-- Classes that are declared in terms of each other, line by line: the name of the first one gets a class that was
allocated last. -/
example :
    let line (source : String) : Turn :=
      ⟨⟨false, ⟨10, 10, fun _ => 0⟩, source, false, none⟩, true⟩
    let turns := [line "class A \x7b\x7d", line "class B < A \x7b\x7d", line "class A < B \x7b\x7d"]
    ((Session.initial.afterTurns turns).machine.globals.get? "A").map
        (fun
          | .classValue c => (c.own :: c.inherited).map (·.address)
          | _ => [])
      = some [5, 3, 1] := by cbv

end LoxLang
