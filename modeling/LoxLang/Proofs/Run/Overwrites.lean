import Mathlib
import LoxLang.Proofs.Run.Sessions

/-!
# Assignments and the names they find

The evaluator once more, with a guard before each assignment through a distance, when the value has been found: the
frame at that distance must bind the name already. One sort of assignment is exempt, that to a local variable within
its own initializer. It is made before the variable is declared, and puts the name into the frame itself.

* **`Runner.assign_binds_iff`** — an assignment that finds its name puts no name into any frame.
* **`assignments_overwrite`** — the guarded run of a program without complaints is the plain run.
* **`assignment_creates_variable`** — without the exemption it is not.
-/

namespace LoxLang

/-! ## The guard

A watched run stops when an assignment would bind a name that its frame does not bind. That it never does so is what has
to be shown. -/

/-- The variable that the expression of a statement initializes. -/
def Stmt.initialized : Stmt Hops → Option String
  | .var name _ => some name.lexeme
  | _ => none

/-- An assignment in the initializer of `own`, if it is in one, finds its name in its frame. If `exempts`, it may also
be the one to `own` in the innermost frame. -/
def Reference.mayAssign (exempts : Bool) (own : Option String) (target : Reference Hops) (m : Machine) : Bool :=
  target.findsName m || (exempts && own = some target.name.lexeme && target.note = some 0)

/-- The rule for assignments under guard. -/
def Runner.assignGuarded (exempts : Bool) (own : Option String) (run : Runner) (target : Reference Hops)
    (value : Expr Hops) : Eval Value := do
  let v ← run.evaluate value
  Eval.ensuring (target.mayAssign exempts own) (Runner.assign target v)
  return v

mutual

/-- Evaluates an expression in the initializer of `own` under guard with at most `n` levels of nesting. -/
def evaluateGuarded (settings : Settings) (exempts : Bool) : Nat → Option String → Expr Hops → Eval Value
  | 0, _, _ => throw .tooDeep
  | n + 1, own, .assign target value =>
    Runner.assignGuarded exempts own
      ⟨evaluateGuarded settings exempts n own, executeGuarded settings exempts n⟩ target value
  | n + 1, own, e =>
    Runner.evaluateNode settings
      ⟨evaluateGuarded settings exempts n own, executeGuarded settings exempts n⟩ e

/-- Executes a statement under guard with at most `n` levels of nesting. -/
def executeGuarded (settings : Settings) (exempts : Bool) : Nat → Stmt Hops → Eval Completion
  | 0, _ => throw .tooDeep
  | n + 1, s =>
    Runner.executeNode settings
      ⟨evaluateGuarded settings exempts n s.initialized, executeGuarded settings exempts n⟩ s

end

/-- The runner with the guard. Whole programs are in no initializer. -/
def Settings.guard (settings : Settings) (exempts : Bool) : Runner where
  evaluate := evaluateGuarded settings exempts settings.nesting none
  execute := executeGuarded settings exempts settings.nesting

/-- Runs the statements of a program under guard. -/
def Machine.runGuarded (settings : Settings) (exempts : Bool) (program : List (Stmt Hops)) (m : Machine) :
    Option Stop × Machine :=
  match (settings.guard exempts).executeAll program m with
  | (.ok _, m) => (none, m)
  | (.error stop, m) => (some stop, m)

/-! ## What an assignment changes

Changing a value in a frame that has the name does not change which names there are. -/

section

variable {m : Machine} {S : Scopes}

/-- A name that is bound already is bound once more. -/
theorem Heap.binds_define_iff {h : Heap} {a : Address} {name : String} (hbound : h.Binds a name) (v : Value)
    (b : Address) (other : String) : (h.define a name v).Binds b other ↔ h.Binds b other := by
  unfold Binds
  rw [vars_define hbound.isFrame]
  split
  case isTrue hboth =>
    obtain ⟨rfl, rfl⟩ := hboth
    exact ⟨fun _ => hbound, fun _ => rfl⟩
  case isFalse => rfl

/-- A name that is found lies in a frame of the environment. -/
theorem Reference.exists_of_findsName {r : Reference Hops} (hfinds : r.findsName m = true) {d : Nat}
    (hd : r.note = some d) : ∃ a, m.environment[d]? = some a ∧ m.heap.Binds a r.name.lexeme := by
  obtain ⟨v, hv⟩ := Option.isSome_iff_exists.mp ((Option.all_eq_true _ _).mp hfinds d hd)
  obtain ⟨vars, hvars, hv⟩ := Option.bind_eq_some_iff.mp hv
  cases ha : m.environment[d]? with
  | none =>
    rw [Machine.frame?, ha] at hvars
    cases hvars
  | some a =>
    refine ⟨a, rfl, ?_⟩
    rw [Machine.frame?, ha, Option.bind_some] at hvars
    -- only a frame has variables to find the name among
    rcases hcell : m.heap.cells[a]? with _ | (vars' | _ | _)
    case some.frame =>
      rw [hcell] at hvars
      obtain rfl : vars' = vars := Option.some.inj hvars
      rw [Heap.Binds, Heap.vars, hcell, hv]
      rfl
    all_goals
      rw [hcell] at hvars
      cases hvars

/-- An assignment that finds its name ends well, and no frame has more or fewer names afterwards. -/
theorem Runner.assign_binds_iff {target : Reference Hops} (hfinds : target.findsName m = true) {d : Nat}
    (hd : target.note = some d) (v : Value) :
    (Runner.assign target v m).1.isOk = true ∧
      ∀ a name, (Runner.assign target v m).2.heap.Binds a name ↔ m.heap.Binds a name := by
  obtain ⟨a, ha, hbound⟩ := target.exists_of_findsName hfinds hd
  have hassign : Runner.assign target v m
      = (.ok (), { m with heap := m.heap.define a target.name.lexeme v }) := by
    unfold Runner.assign
    rw [hd]
    change Eval.assignAt m.environment d target.name.lexeme v m = _
    rw [Eval.assignAt, Environment.frameAt_of_getElem? ha]
    rfl
  rw [hassign]
  exact ⟨rfl, Heap.binds_define_iff hbound v⟩

/-! ## Guarded runs

The guard passes because the environment fits the scopes. So the guarded runner is sound, by the same rules as the
watched one, and then it is the plain one. -/

/-- Where scopes are fitted, a resolved assignment finds its name, or it is exempt: the scopes count the variable that
is being initialized for assignments, but its frame does not bind it yet. -/
theorem Reference.mayAssign_of_hops (h : m.At S) {target : Reference Hops} {pending own : Option String}
    (hnote : target.note = (S.declare pending.toList).hops target.name.lexeme)
    (hpending : pending = none ∨ pending = own) : target.mayAssign true own m = true := by
  have hfound : target.note = S.hops target.name.lexeme → target.mayAssign true own m = true :=
    fun hnote => by simp [mayAssign, findsName_of_hops h hnote]
  cases pending with
  | none =>
    rw [Option.toList_none, Scopes.declare_nil_right] at hnote
    exact hfound hnote
  | some name =>
    by_cases hname : target.name.lexeme = name
    · -- outside of local scopes nothing is pending
      cases S with
      | nil => exact hfound hnote
      | cons scope S =>
        -- the variable is the one that the guard exempts, in the innermost frame
        have hown : own = some target.name.lexeme := by
          rw [hname]
          exact (hpending.resolve_left (Option.some_ne_none name)).symm
        have hzero : target.note = some 0 := by
          rw [hnote, Scopes.declare, Scopes.hops_cons, if_pos (by simp [hname])]
        simp [mayAssign, hown, hzero]
    · rw [Scopes.hops_declare (by simpa using hname)] at hnote
      exact hfound hnote

/-- The expressions that belong to the initializer of `own`, or to none. -/
def Within (own : Option String) (pending : Option String) : Prop :=
  pending = none ∨ pending = own

/-- The rule for assignments under guard does what the plain rule does. -/
theorem Runner.assignGuarded_sound {own pending : Option String} {guarded plain : Runner}
    (hrun : Runner.Sound (Within own) guarded plain) (settings : Settings) (hpending : Within own pending)
    (h : m.At S) {target : Reference Hops} {value : Expr Hops}
    (hscoped : (Expr.assign target value).Scoped false S pending) :
    Eval.Sound (assignGuarded true own guarded target value) (evaluateNode settings plain (.assign target value))
      (fun h v => v.Valid h) m := by
  obtain ⟨hnote, hname, -, hvalue⟩ := hscoped
  refine (hrun.evaluate hpending h hvalue).bind fun v m₁ hlead hv => ?_
  have hat := h.lead hlead
  have hmay := Reference.mayAssign_of_hops hat hnote hpending
  exact (Eval.Sound.ensuring hmay (assign_sound hat hnote hname hv)).bind
    fun _ _ hlead₂ _ => .pure hlead₂.good (hv.mono hlead₂.le)

/-- The induction goes over the depth of nesting, for the initializers of all variables at once: a statement begins one
of its own. -/
theorem guarded_nested (settings : Settings) (n : Nat) :
    ∀ own, Runner.Sound (Within own)
      ⟨evaluateGuarded settings true n own, executeGuarded settings true n⟩
      ⟨evaluateNested settings n, executeNested settings n⟩ := by
  induction n with
  | zero =>
    intro own
    constructor
    · exact fun _ h _ => .stop h.good fun _ heq => by cases heq
    · exact fun h _ => .stop h.good fun _ heq => by cases heq
  | succ n ih =>
    intro own
    constructor
    · intro e S pending m hpending h hscoped
      -- only assignments are guarded
      cases e with
      | assign target value => exact Runner.assignGuarded_sound (ih own) settings hpending h hscoped
      | _ => exact Runner.evaluateNode_sound settings (ih own) hpending h hscoped
    · intro s S m h hscoped
      refine Runner.executeNode_sound settings (ih s.initialized) (.inl rfl) (fun name initializer hs => ?_) h hscoped
      rw [hs]
      exact .inr rfl

/-- On a machine outside of all scopes the guarded run is the plain one. -/
theorem Machine.runGuarded_eq (settings : Settings) (h : m.At []) {program : List (Stmt Hops)}
    (hscoped : Stmt.AllScoped false [] program) :
    m.runGuarded settings true program = m.run settings program := by
  have hrun : (settings.guard true).executeAll program m = settings.runner.executeAll program m :=
    (Runner.executeAll_sound (guarded_nested settings settings.nesting none) h hscoped).1
  exact congrArg (fun result : Except Stop Completion × Machine =>
    match result with
    | (.ok _, m) => (none, m)
    | (.error stop, m) => (some stop, m)) hrun

end

/-- After any texts of a session, a program about which there is no complaint runs under guard as it runs without, and
without a fault. So each assignment through a distance finds its name in its frame, but for one to a local variable
within its own initializer. An assignment that finds its name leaves the names of all frames as they are. -/
theorem assignments_overwrite (requests : List Request) (r : Request) :
    let s := Session.initial.after requests
    (∃ program ds, parse (scan r.source).tokens = some ⟨program, ds⟩ ∧
      ((resolve program).2.diagnostics = [] →
        s.machine.runGuarded r.settings true (resolve program).1 = s.machine.run r.settings (resolve program).1 ∧
          ∀ stop ∈ (s.machine.run r.settings (resolve program).1).1, stop.Foreseen)) ∧
      ∀ (m : Machine) (target : Reference Hops) (d : Nat) (v : Value),
        target.findsName m = true → target.note = some d →
          (Runner.assign target v m).1.isOk = true ∧
            ∀ a name, (Runner.assign target v m).2.heap.Binds a name ↔ m.heap.Binds a name := by
  intro s
  have hat : s.machine.At [] := Session.after_sound Machine.at_initial requests
  obtain ⟨program, ds, hparse, hformed⟩ := parse_scan r.source
  obtain ⟨-, -, hclean⟩ := resolve_scoped false hformed fun heq => by cases heq
  refine ⟨⟨program, ds, hparse, fun hnone => ?_⟩, fun m target d v hfinds hd => ?_⟩
  · have hscoped := (hclean hnone).1
    obtain ⟨-, -, hforeseen⟩ := Machine.run_sound r.settings hat hscoped
    exact ⟨Machine.runGuarded_eq r.settings hat hscoped, hforeseen⟩
  · exact Runner.assign_binds_iff hfinds hd v

/-- The exemption is needed, also for texts that are scanned, parsed and resolved without complaint: in
`{ var a = a = nil; }` the assignment is the first to bind the name. -/
theorem assignment_creates_variable :
    ¬ ∀ (settings : Settings) (source : String) (program : List SourceStmt), (scan source).diagnostics = [] →
      parse (scan source).tokens = some ⟨program, []⟩ → (resolve program).2.diagnostics = [] →
        Machine.initial.runGuarded settings false (resolve program).1
          = Machine.initial.run settings (resolve program).1 := by
  intro h
  let source := "\x7b var a = a = nil; \x7d"
  let name : Token := ⟨.identifier, "a", .nil, 1⟩
  let program : List SourceStmt := [.block [.var name (some (.assign ⟨name, ()⟩ (.literal .nil)))]]
  let settings : Settings := ⟨10, 10, fun _ => 0⟩
  have hparse : parse (scan source).tokens = some ⟨program, []⟩ := by cbv
  have hguarded : (Machine.initial.runGuarded settings false (resolve program).1).1 = some (.fault .absent) := by cbv
  have hplain : (Machine.initial.run settings (resolve program).1).1 = none := by cbv
  have heq := h settings source program (by cbv) hparse (by cbv)
  rw [heq, hplain] at hguarded
  cases hguarded

end LoxLang
