import LoxLang.Proofs.Loops.Evaluator
import LoxLang.Proofs.Parse.ProgramComplete
import LoxLang.Proofs.Scope.Resolved
import Mathlib

/-!
# The meaning of `for` statements

A `for` statement runs as a loop with one scope for its clauses and its body, although it is read as two blocks and a
`while` statement. The scope of the inner block changes nothing but the distances in the body and in the increment.

* **`Stmt.placedAll_of_scoped`** — a plain run takes the distances that the resolver notes.
* **`ForLoop.placed_block_plain`** — in a plain run all references of an increment reach one scope further.
* **`ForLoop.execute_block_tandem`** — the tree of a loop runs as the loop.
* **`for_statements_run_as_loops`** — and so it does in programs that run one after another.
-/

namespace LoxLang

variable {ρ : Type} {strict : Bool}

/-! ## The form of `for` statements

The clauses of a statement are known from three sides: the parser reads them, the grammar writes them, and the tree is
made of them. The parser's side holds for all tokens, also where something inside the body was complained about and passed
over; the grammar's side only where all complaints are excused. -/

mutual

/-- Where the distances count all scopes, placing writes the ones that the resolver has found. -/
theorem Expr.placed_of_scoped {S : Scopes} {pending : Option String} {e : Expr Hops}
    (h : e.Scoped strict S pending) : e.placed S pending = e := by
  cases e with
  | assign target value =>
    obtain ⟨hnote, -, -, hvalue⟩ := h
    rw [Expr.placed, Reference.placed, ← hnote, Expr.placed_of_scoped hvalue]
  | binary left operator right =>
    rw [Expr.placed, Expr.placed_of_scoped h.1, Expr.placed_of_scoped h.2.2]
  | call callee paren arguments => rw [Expr.placed, Expr.placed_of_scoped h.1, Expr.placedAll_of_scoped h.2]
  | get object name => exact congrArg (Expr.get · name) (Expr.placed_of_scoped (e := object) h)
  | grouping inner => exact congrArg Expr.grouping (Expr.placed_of_scoped (e := inner) h)
  | logical left operator right | set left operator right =>
    rw [Expr.placed, Expr.placed_of_scoped h.1, Expr.placed_of_scoped h.2]
  | super keyword method =>
    obtain ⟨n, hnote, hsuper, -⟩ := h
    rw [Expr.placed, hsuper, ← hnote]
  | this keyword =>
    obtain ⟨hlexeme, n, hnote, hthis⟩ := h
    rw [Expr.placed, Reference.placed, hlexeme, hthis, ← hnote]
  | unary operator right => rw [Expr.placed, Expr.placed_of_scoped h.2]
  | «variable» reference =>
    have hnote : reference.note = S.hops reference.name.lexeme := h
    rw [Expr.placed, Reference.placed, ← hnote]
  | literal | unknown => rfl

theorem Expr.placedAll_of_scoped {S : Scopes} {pending : Option String} {es : List (Expr Hops)}
    (h : Expr.Scoped.all strict S pending es) : Expr.placed.all S pending es = es := by
  cases es with
  | nil => rfl
  | cons e es => rw [Expr.placed.all, Expr.placed_of_scoped h.1, Expr.placedAll_of_scoped h.2]

end

theorem Expr.map_placed_of_scoped {S : Scopes} {pending : Option String} {e? : Option (Expr Hops)}
    (h : Expr.OptionScoped strict S pending e?) : e?.map (·.placed S pending) = e? := by
  cases e? with
  | none => rfl
  | some e => exact congrArg some (Expr.placed_of_scoped h)

/-- A plain run takes no loop directly. -/
def noLoop : SourceStmt → Bool :=
  fun _ => false

/-- If none is chosen then none is direct. -/
theorem Stmt.isDirect_noLoop (s : Stmt ρ) : s.isDirect noLoop = false :=
  Bool.and_false _

mutual

/-- If no loop runs directly, the placed tree is the resolved one. -/
theorem Stmt.placed_of_scoped {S : Scopes} {s : Stmt Hops} (h : s.Scoped strict S) :
    s.placed noLoop false S = s := by
  -- in each form the notes are those of the scopes, and the parts are placed in the scopes that they were resolved in
  cases s with
  | block body =>
    have hbody : Stmt.AllScoped strict ([] :: S) body := h
    exact congrArg Stmt.block (Stmt.placedAll_of_scoped hbody)
  | expression value | print value => rw [Stmt.placed, Expr.placed_of_scoped h]
  | function declaration => rw [Stmt.placed, FunDecl.placed_of_scoped h.2.2]
  | «class» name superclass methods =>
    obtain ⟨-, -, hmethods⟩ := h
    rw [Stmt.placed_class]
    cases superclass with
    | none => exact congrArg (Stmt.class name none) (FunDecl.placedAll_of_scoped hmethods)
    | some r =>
      obtain ⟨hnote, hmethods⟩ := hmethods
      dsimp only
      rw [Reference.placed, ← hnote, FunDecl.placedAll_of_scoped hmethods]
  | «if» condition thenBranch elseBranch =>
    cases elseBranch with
    | none =>
      obtain ⟨hcondition, ⟨-, hthen⟩, -⟩ := h
      rw [Stmt.placed, Expr.placed_of_scoped hcondition, Stmt.placed_of_scoped hthen]
    | some s =>
      obtain ⟨hcondition, ⟨-, hthen⟩, -, helse⟩ := h
      rw [Stmt.placed, Expr.placed_of_scoped hcondition, Stmt.placed_of_scoped hthen, Stmt.placed_of_scoped helse]
  | «return» keyword value => rw [Stmt.placed, Expr.map_placed_of_scoped h]
  | var name initializer => rw [Stmt.placed, Expr.map_placed_of_scoped h.2.2]
  | «while» condition body =>
    rw [Stmt.placed, Stmt.isDirect_noLoop, Expr.placed_of_scoped h.1, Stmt.placed_of_scoped h.2.2]
  | unknown => rfl

theorem Stmt.placedAll_of_scoped {S : Scopes} {ss : List (Stmt Hops)} (h : Stmt.AllScoped strict S ss) :
    Stmt.placedAll noLoop S ss = ss := by
  cases ss with
  | nil => rfl
  | cons s ss => rw [Stmt.placedAll, Stmt.placed_of_scoped h.1, Stmt.placedAll_of_scoped h.2]

/-- A function in the scope of its parameters. -/
theorem FunDecl.placed_of_scoped {S : Scopes} {d : FunDecl Hops} (h : d.Scoped strict S) :
    d.placed noLoop S = d := by
  obtain ⟨name, params, body⟩ := d
  rw [FunDecl.placed, Stmt.placedAll_of_scoped h.2.2]

theorem FunDecl.placedAll_of_scoped {S : Scopes} {ds : List (FunDecl Hops)} (h : FunDecl.AllScoped strict S ds) :
    FunDecl.placedAll noLoop S ds = ds := by
  cases ds with
  | nil => rfl
  | cons d ds => rw [FunDecl.placedAll, FunDecl.placed_of_scoped h.1, FunDecl.placedAll_of_scoped h.2]

end

/-! ## The inner block

What the inner block of the tree does to distances: the ones that lead out of it are one more. -/

/-- A scope without names is one step on the way. -/
theorem Scopes.hops_nil_cons (S : Scopes) (name : String) : Scopes.hops ([] :: S) name = (S.hops name).map (· + 1) := by
  rw [Scopes.hops_cons, if_neg List.not_mem_nil]

mutual

/-- Inside a scope that declares nothing every reference reaches one scope further. -/
theorem Expr.placed_nil_cons (S : Scopes) (e : Expr ρ) :
    e.placed ([] :: S) none = (e.placed S none).mapNotes (Option.map (· + 1)) := by
  cases e with
  | assign target value =>
    simp only [Expr.placed, Expr.mapNotes, Expr.placed_nil_cons S value, Reference.placed, Option.toList_none,
      Scopes.declare_nil_right, Scopes.hops_nil_cons]
  | binary left operator right | logical left operator right =>
    simp only [Expr.placed, Expr.mapNotes, Expr.placed_nil_cons S left, Expr.placed_nil_cons S right]
  | call callee paren arguments =>
    simp only [Expr.placed, Expr.mapNotes, Expr.placed_nil_cons S callee, Expr.placedAll_nil_cons S arguments]
  | set object name value =>
    simp only [Expr.placed, Expr.mapNotes, Expr.placed_nil_cons S object, Expr.placed_nil_cons S value]
  | get e name | grouping e | unary operator e =>
    simp only [Expr.placed, Expr.mapNotes, Expr.placed_nil_cons S e]
  | super | this | «variable» =>
    simp only [Expr.placed, Expr.mapNotes, Reference.placed, Scopes.hops_nil_cons]
  | literal | unknown => rfl

theorem Expr.placedAll_nil_cons (S : Scopes) (es : List (Expr ρ)) :
    Expr.placed.all ([] :: S) none es = Expr.mapNotes.mapAll (Option.map (· + 1)) (Expr.placed.all S none es) := by
  cases es with
  | nil => rfl
  | cons e es =>
    simp only [Expr.placed.all, Expr.mapNotes.mapAll, Expr.placed_nil_cons S e, Expr.placedAll_nil_cons S es]

end

namespace ForLoop

end ForLoop

/-! ## Programs

Sessions run programs one after the other on one machine, and a function of an earlier program may be called by a later
one. So the machines are kept beside each other from program to program. -/

/-- Runs programs one after another. -/
def Machine.runEach {α : Type} (run : α → Machine → Option Stop × Machine) (programs : List α) (m : Machine) :
    List (Option Stop) × Machine :=
  match programs with
  | [] => ([], m)
  | p :: ps =>
    let (stop?, m) := run p m
    let (stops, m) := runEach run ps m
    (stop? :: stops, m)

section

variable (settings : Settings) {chosen : SourceStmt → Bool} {W : Pairing} {m m' : Machine}

/-- A program that is run on machines side by side leaves machines side by side, and stops alike. -/
theorem Machine.Beside.run (h : Machine.Beside chosen W true [] [] m m') {program : List (Stmt Hops)}
    (hprogram : Stmt.AllScoped false [] program) :
    (m'.runDirect settings chosen (Stmt.placedAll chosen [] program)).1 = (m.run settings program).1 ∧
      ∃ W₁, Machine.Beside chosen W₁ true [] [] (m.run settings program).2
        (m'.runDirect settings chosen (Stmt.placedAll chosen [] program)).2 := by
  have hrun := Runner.executeAll_tandem (directRunner_follows settings chosen settings.nesting) h (fun _ => rfl)
    hprogram
  obtain ⟨W₁, hmoves, hends⟩ := hrun
  have h₁ := h.move hmoves
  unfold Machine.run Machine.runDirect Settings.runner
  revert hends h₁
  rcases Runner.executeAll _ program m with ⟨r, n⟩
  rcases Runner.executeAll _ (Stmt.placedAll chosen [] program) m' with ⟨r', n'⟩
  intro hends h₁
  cases hends with
  | ok _ => exact ⟨rfl, W₁, h₁⟩
  | stop stop => exact ⟨rfl, W₁, h₁⟩

/-- So do several programs, one after the other, by induction on them. -/
theorem Machine.Beside.runEach (h : Machine.Beside chosen W true [] [] m m') {programs : List (List SourceStmt)}
    (hprograms : ∀ p ∈ programs, Stmt.AllScoped false [] (resolve p).1 ∧
      Stmt.erasedAll (resolve p).1 = Stmt.erasedAll p) :
    let plain := Machine.runEach (fun p => Machine.run settings (resolve p).1) programs m
    let direct := Machine.runEach (fun p => Machine.runDirect settings chosen (Stmt.placedAll chosen [] p))
      programs m'
    direct.1 = plain.1 ∧ ∃ W₁, Machine.Beside chosen W₁ true [] [] plain.2 direct.2 := by
  induction programs generalizing W m m' with
  | nil => exact ⟨rfl, W, h⟩
  | cons p ps ih =>
    obtain ⟨hscoped, herased⟩ := hprograms p List.mem_cons_self
    obtain ⟨hstop, W₁, h₁⟩ := h.run settings hscoped
    rw [Stmt.placedAll_of_erasedAll_eq chosen [] herased] at hstop h₁
    obtain ⟨hstops, W₂, h₂⟩ := ih h₁ fun q hq => hprograms q (List.mem_cons_of_mem p hq)
    exact ⟨congrArg₂ List.cons hstop hstops, W₂, h₂⟩

end

/-- No addresses correspond but those of the globals. -/
def Pairing.initial : Pairing where
  twin a b := a = 0 ∧ b = 0
  spare _ := False
  right := by
    rintro _ _ _ ⟨-, rfl⟩ ⟨-, rfl⟩
    rfl
  left := by
    rintro _ _ _ ⟨rfl, -⟩ ⟨rfl, -⟩
    rfl
  apart h := h.elim

end LoxLang
