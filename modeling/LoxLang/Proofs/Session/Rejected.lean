import LoxLang.Proofs.Filing.Sessions
import LoxLang.Proofs.Session.Gating

/-!
# Rejected programs

A program that is rejected before it runs, or that is to stop before it runs, leaves no trace in what can be seen of the
steps after it.

* **`Session.sights`** — what can be seen of a session, step by step.
* **`rejected_leave_no_trace`** — without rejected steps the others look the same. They look the same, too, if all
  distances are kept in one ledger, where those of rejected programs remain.
-/

namespace LoxLang

/-- What can be seen of a step: the lines that it has printed, its log, the globals as they are printed, and the reason
for an unforeseen stop. -/
structure Sight where
  printed : List String
  log : Log
  globals : Bindings String
  stop? : Option Stop

namespace Sight

/-- What can be seen of a step from one machine to another. -/
def between (before after : Machine) (log : Log) (stop? : Option Stop) : Sight :=
  ⟨after.printed.toList.drop before.printed.size, log, after.globals.mapValues Value.text, stop?⟩

/-- The program was rejected before it ran, or was to stop before it runs. -/
def Rejected (x : Sight) (r : Request) : Prop :=
  x.log.Has [.scan, .parse, .resolve] ∨ r.stopAfter.isSome

instance (x : Sight) (r : Request) : Decidable (x.Rejected r) :=
  inferInstanceAs (Decidable ((∃ d ∈ x.log.diagnostics, d.stage ∈ [Stage.scan, .parse, .resolve]) ∨ _))

/-- The notes in code cannot be seen. -/
theorem between_mapNotes (f g : View) (before after : Machine) (log : Log) (stop? : Option Stop) :
    between (before.mapNotes f) (after.mapNotes g) log stop? = between before after log stop? := by
  have hglobals : (after.mapNotes g).globals.mapValues Value.text = after.globals.mapValues Value.text := by
    show ((after.heap.mapValues _).vars 0).mapValues _ = _
    rw [Heap.vars_mapValues, Bindings.mapValues_mapValues, funext (Value.text_mapNotes g)]
    rfl
  rw [between, hglobals]
  rfl

end Sight

/-- What can be seen of the steps for requests. The log is forgotten after each of them. -/
def Session.sights (s : Session) : List Request → List Sight
  | [] => []
  | r :: rs =>
    let step := s.serve r
    .between s.machine step.session.machine step.session.log step.stop? :: step.session.resetLog.sights rs

/-- What can be seen of the steps for requests if all code is filed. -/
def FiledSession.sights (t : FiledSession) : List Request → List Sight
  | [] => []
  | r :: rs =>
    let step := t.serve r
    .between t.machine step.2.machine step.2.log step.1 :: step.2.resetLog.sights rs

/-! ## Without rejected steps

Two sessions are alike if they differ in the table only. No step looks at the table, and a rejected step changes nothing
else that stays. -/

namespace Session

/-- Sessions that differ in their tables only. -/
structure Alike (s s' : Session) : Prop where
  machine : s.machine = s'.machine
  log : s.log = s'.log

variable {s s' : Session}

theorem Alike.execute (h : s.Alike s') (settings : Settings) (program : List (Stmt Hops)) :
    (s.execute settings program).1 = (s'.execute settings program).1 ∧
      (s.execute settings program).2.Alike (s'.execute settings program).2 := by
  obtain ⟨m, table, log⟩ := s
  obtain ⟨m', table', log'⟩ := s'
  obtain ⟨rfl, rfl⟩ := h
  unfold Session.execute
  dsimp only
  rcases m.run settings program with ⟨stop?, m'⟩
  match stop? with
  | none | some (.error d) | some (.fault f) | some .tooDeep | some .tooLong => exact ⟨rfl, rfl, rfl⟩

/-- Sessions that differ in dead entries of the table give the same reply, since no stage looks such an entry up. -/
theorem Alike.step (h : s.Alike s') (settings : Settings) (wantsTable : Bool) (stopAfter : Option ArtifactName)
    (source : String) :
    (s.step settings wantsTable stopAfter source).stop? = (s'.step settings wantsTable stopAfter source).stop? ∧
      (s.step settings wantsTable stopAfter source).session.Alike
        (s'.step settings wantsTable stopAfter source).session := by
  obtain ⟨program, ds, hparse, hformed⟩ := parse_scan source
  obtain ⟨hfault, -⟩ := resolve_scoped false hformed fun heq => by cases heq
  obtain ⟨m, table, log⟩ := s
  obtain ⟨m', table', log'⟩ := s'
  obtain ⟨rfl, rfl⟩ := h
  -- stage by stage: both steps end here, or both go on
  unfold Session.step
  dsimp only [report]
  split
  · exact ⟨rfl, rfl, rfl⟩
  rw [hparse]
  dsimp only
  split
  · exact ⟨rfl, rfl, rfl⟩
  rw [hfault]
  dsimp only
  split
  · exact ⟨rfl, rfl, rfl⟩
  · have halike : ∀ log, Session.Alike ⟨m, table ++ (resolve program).2.entries, log⟩
        ⟨m, table' ++ (resolve program).2.entries, log⟩ := fun _ => ⟨rfl, rfl⟩
    exact (halike _).execute settings _

/-- A request is a step with settings of its own. -/
theorem Alike.serve (h : s.Alike s') (r : Request) :
    (s.serve r).stop? = (s'.serve r).stop? ∧ (s.serve r).session.Alike (s'.serve r).session := by
  unfold Session.serve
  cases r.resets
  · exact h.step _ _ _ _
  · have hreset : s.resetLog.Alike s'.resetLog := ⟨h.machine, rfl⟩
    exact hreset.step _ _ _ _

/-- On an empty log it does not matter whether the log is reset. -/
theorem serve_of_empty (h : s.log = .empty) (r : Request) :
    s.serve r = s.resetLog.step r.settings r.wantsTable r.stopAfter r.source := by
  have hreset : s.resetLog = s := by rw [resetLog, ← h]
  rw [serve, hreset, ite_self]

/-- A rejected program does not change the machine. -/
theorem machine_of_rejected (h : s.log = .empty) (r : Request)
    (hrejected : (s.serve r).session.log.Has [.scan, .parse, .resolve] ∨ r.stopAfter.isSome) :
    (s.serve r).session.machine = s.machine := by
  have hgated := s.step_gated r.settings r.wantsTable r.stopAfter r.source
  rw [← serve_of_empty h] at hgated
  obtain ⟨d, hd, hstage⟩ | hstop := hrejected
  · simp only [List.mem_cons, List.not_mem_nil, or_false] at hstage
    obtain hscan | hparse | hresolve := hstage
    · exact (hgated.unresolved (.inl ⟨d, hd, by simp [hscan]⟩)).2
    · exact (hgated.unresolved (.inl ⟨d, hd, by simp [hparse]⟩)).2
    · exact (hgated.unexecuted (.inl ⟨d, hd, by simp [hresolve]⟩)).1
  · obtain ⟨artifact, hartifact⟩ := Option.isSome_iff_exists.mp hstop
    cases artifact with
    | tokens => exact (hgated.unresolved (.inr (.inl hartifact))).2
    | ast => exact (hgated.unresolved (.inr (.inr hartifact))).2
    | resolution => exact (hgated.unexecuted (.inr hartifact)).1

/-- Requests with marks on those that are deleted: if these are rejected, the others are answered as they are without
them. -/
theorem sights_delete (requests : List (Request × Bool)) (hlog : s.log = .empty) (halike : s.Alike s')
    (hrejected : ∀ x ∈ requests.zip (s.sights (requests.map (·.1))), x.1.2 = true → x.2.Rejected x.1.1) :
    ((requests.zip (s.sights (requests.map (·.1)))).filter (!·.1.2)).map (·.2)
      = s'.sights ((requests.filter (!·.2)).map (·.1)) := by
  induction requests generalizing s s' with
  | nil => rfl
  | cons request requests ih =>
    obtain ⟨r, deleted⟩ := request
    obtain ⟨hfirst, hrest⟩ := List.forall_mem_cons.mp hrejected
    have hlog' : (s.serve r).session.resetLog.log = .empty := rfl
    cases deleted with
    | true =>
      -- the next step finds the machine and the log as this one has found them
      have hmachine := machine_of_rejected hlog r (hfirst rfl)
      exact ih hlog' ⟨hmachine.trans halike.machine, hlog.symm.trans halike.log⟩ hrest
    | false =>
      obtain ⟨hstop, hmachine, hlogs⟩ := halike.serve r
      have hsight : Sight.between s.machine (s.serve r).session.machine (s.serve r).session.log (s.serve r).stop?
          = .between s'.machine (s'.serve r).session.machine (s'.serve r).session.log (s'.serve r).stop? := by
        rw [halike.machine, hstop, hmachine, hlogs]
      exact congrArg₂ List.cons hsight (ih hlog' ⟨hmachine, rfl⟩ hrest)

end Session

/-! ## Filed code

Code that is filed refers to places of the ledger, and the entries of rejected programs shift them. What the code means
stays the same. -/

namespace FiledSession

variable {t : FiledSession} {s : Session}

/-- The session with the distances in place looks the same. -/
theorem StandsFor.sights (h : t.StandsFor s) (requests : List Request) : t.sights requests = s.sights requests := by
  induction requests generalizing t s with
  | nil => rfl
  | cons r requests ih =>
    obtain ⟨hstop, hstep⟩ := h.serve r
    obtain ⟨hbefore, -⟩ := h.machine t.ledger List.prefix_rfl
    obtain ⟨hafter, -⟩ := hstep.machine (t.serve r).2.ledger List.prefix_rfl
    have hsight : Sight.between t.machine (t.serve r).2.machine (t.serve r).2.log (t.serve r).1
        = .between s.machine (s.serve r).session.machine (s.serve r).session.log (s.serve r).stop? := by
      rw [← hbefore, ← hafter, Sight.between_mapNotes, hstop, hstep.log]
    exact congrArg₂ List.cons hsight (ih hstep.resetLog)

/-- Whatever both have been asked to do, one stands for the other. -/
theorem StandsFor.after (h : t.StandsFor s) (requests : List Request) :
    (t.after requests).StandsFor (s.after requests) := by
  induction requests generalizing t s with
  | nil => exact h
  | cons r requests ih => exact ih (h.serve r).2

end FiledSession

/-- **A rejected program leaves no trace.** In any session whose log is forgotten after each step, take away any steps
that reported a diagnostic of the scan, the parser or the resolver, or that were to stop before the run. What can be
seen of the others stays. It stays the same, too, if the distances are not in the code but in one ledger, in which
those of rejected programs remain, and each reference that is executed is looked up there. -/
theorem rejected_leave_no_trace (requests : List (Request × Bool))
    (hrejected : ∀ x ∈ requests.zip (Session.initial.sights (requests.map (·.1))),
      x.1.2 = true → x.2.Rejected x.1.1) :
    ((requests.zip (Session.initial.sights (requests.map (·.1)))).filter (!·.1.2)).map (·.2)
        = Session.initial.sights ((requests.filter (!·.2)).map (·.1)) ∧
      ∀ rs : List Request, FiledSession.initial.sights rs = Session.initial.sights rs ∧
        (FiledSession.initial.after rs).ledger.depths = (Session.initial.after rs).table.map (·.depth) := by
  refine ⟨Session.sights_delete requests rfl ⟨rfl, rfl⟩ hrejected, fun rs => ?_⟩
  have hinitial := FiledSession.standsFor_initial
  exact ⟨hinitial.sights rs, (hinitial.after rs).table.symm⟩

/-- A function that was declared before a rejected program is called behind it. -/
theorem rejected_leave_no_trace_between :
    let line (source : String) : Request := ⟨true, ⟨10, 10, fun _ => 0⟩, source, false, none⟩
    let requests := [(line "fun f(a) \x7b return a; \x7d", false), (line "\x7b var b = b; \x7d", true),
      (line "print f(\"x\");", false)]
    let sights := Session.initial.sights (requests.map (·.1))
    (∀ x ∈ requests.zip sights, x.1.2 = true → x.2.Rejected x.1.1) ∧
      sights.map (·.printed) = [[], [], ["x"]] ∧
      ((requests.zip sights).filter (!·.1.2)).map (·.2)
        = Session.initial.sights [line "fun f(a) \x7b return a; \x7d", line "print f(\"x\");"] := by
  intro line requests sights
  have hrejected : ∀ x ∈ requests.zip sights, x.1.2 = true → x.2.Rejected x.1.1 :=
    of_decide_eq_true (by cbv)
  exact ⟨hrejected, by cbv, (rejected_leave_no_trace requests hrejected).1⟩

end LoxLang
