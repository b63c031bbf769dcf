import LoxLang.Proofs.Lineage.Machines
import LoxLang.Proofs.Run.Watch

/-!
# Orderly runs

The evaluator once more, with a check of the machine before each node it visits. A check that fails stops the run with
a fault, so a checked run that agrees with the plain one has met no machine that fails it.

`Eval.Orderly` is a triple for both runs. From a machine with a lineage the plain one leaves a machine with a longer
lineage; and the checked one agrees with it if the check succeeds on all machines whose lineage is a beginning of that
one. The check is chosen last, so that it can know the lineage.

* **`Eval.Orderly.bind`** — one run after another.
* **`Eval.Orderly.allocFrame`**, … — allocations, each with what is known of its address from then on.
-/

namespace LoxLang

/-! ## Checked runs

The check is any test of a machine. With it a property can be stated of all machines that a run comes through. -/

mutual

/-- Evaluates an expression with a check before each node, with at most `n` levels of nesting. -/
def evaluateChecked (settings : Settings) (check : Machine → Bool) : Nat → Expr Hops → Eval Value
  | 0, _ => throw .tooDeep
  | n + 1, e =>
    .ensuring check
      (Runner.evaluateNode settings ⟨evaluateChecked settings check n, executeChecked settings check n⟩ e)

/-- Executes a statement with a check before each node, with at most `n` levels of nesting. -/
def executeChecked (settings : Settings) (check : Machine → Bool) : Nat → Stmt Hops → Eval Completion
  | 0, _ => throw .tooDeep
  | n + 1, s =>
    .ensuring check
      (Runner.executeNode settings ⟨evaluateChecked settings check n, executeChecked settings check n⟩ s)

end

/-- The runner that checks. -/
def Settings.checker (settings : Settings) (check : Machine → Bool) : Runner where
  evaluate := evaluateChecked settings check settings.nesting
  execute := executeChecked settings check settings.nesting

/-- Runs the statements of a program with a check before each node. -/
def Machine.runChecked (settings : Settings) (check : Machine → Bool) (program : List (Stmt Hops)) (m : Machine) :
    Option Stop × Machine :=
  match (settings.checker check).executeAll program m with
  | (.ok _, m) => (none, m)
  | (.error stop, m) => (some stop, m)

/-! ## The triple

The lineage that a run ends with is found first, and then the check may depend on it. That is why the triple takes the
checked run as a function of the check. -/

/-- A stop because no variable has the name. -/
def Stop.Misses (stop : Stop) (name : String) : Prop :=
  ∃ token, stop = .error (.ofToken .runtime (.undefinedVariable name) token)

/-- From a machine with the lineage, the plain run leaves a machine with a longer one, and the checked run agrees with
it. If it stops because no variable has a name, then the globals do not have it. -/
def Eval.Orderly {α : Type} (checked : (Machine → Bool) → Eval α) (plain : Eval α) (Q : Lineage → α → Prop)
    (L : Lineage) (m : Machine) : Prop :=
  ∃ L', m.Evolves L L' (plain m).2 ∧
    (match (plain m).1 with
      | .ok a => Q L' a
      | .error stop => ∀ name, stop.Misses name → ¬ (plain m).2.heap.Binds 0 name) ∧
    ∀ check : Machine → Bool, (∀ m', m'.During L' m.heap (plain m).2.heap → check m' = true) →
      checked check m = plain m

namespace Eval

variable {α β : Type} {m : Machine} {L : Lineage}

/-- A run without nodes, with the same property on all paths. -/
abbrev OrderlyStep (act : Eval α) (Q : Lineage → α → Prop) (L : Lineage) (m : Machine) : Prop :=
  Orderly (fun _ => act) act Q L m

namespace Orderly

variable {w : (Machine → Bool) → Eval α} {p : Eval α} {f : (Machine → Bool) → α → Eval β} {g : α → Eval β}
  {Q : Lineage → α → Prop} {R : Lineage → β → Prop}

/-- A run that gives a result and changes the machine in one step. -/
theorem of_ok {L' : Lineage} {m' : Machine} {a : α} (hp : p m = (.ok a, m')) (hev : m.Evolves L L' m')
    (ha : Q L' a) : OrderlyStep p Q L m := by
  refine ⟨L', ?_, ?_, fun _ _ => rfl⟩
  · rw [hp]
    exact hev
  · rw [hp]
    exact ha

theorem pure (hm : m.Descends L) {a : α} (ha : Q L a) : OrderlyStep (pure a) Q L m :=
  of_ok rfl (.refl hm) ha

/-- A stop for another reason than that a variable is missing. -/
theorem stop (hm : m.Descends L) {stop : Stop} (hstop : ∀ name, stop.Misses name → ¬ m.heap.Binds 0 name) :
    OrderlyStep (throw stop) Q L m :=
  ⟨L, .refl hm, hstop, fun _ _ => rfl⟩

/-- A fault misses no name. -/
theorem fault (hm : m.Descends L) (f : Fault) : OrderlyStep (throw (.fault f)) Q L m := by
  refine stop hm ?_
  rintro name ⟨token, hmisses⟩
  cases hmisses

/-- A mistake; if it is about an undefined variable then the globals do not have it. -/
theorem fail (hm : m.Descends L) {cause : Cause} (token : Token)
    (hcause : ∀ name, cause = .undefinedVariable name → ¬ m.heap.Binds 0 name) :
    OrderlyStep (fail cause token) Q L m := by
  refine stop hm ?_
  rintro name ⟨token, hmisses⟩
  cases hmisses
  exact hcause name rfl

/-- What is known of results may be weakened. -/
theorem mono {Q' : Lineage → α → Prop} (h : Orderly w p Q L m)
    (himp : ∀ L' m', m.Evolves L L' m' → ∀ a, Q L' a → Q' L' a) : Orderly w p Q' L m := by
  obtain ⟨L', hev, hpost, hcheck⟩ := h
  refine ⟨L', hev, ?_, hcheck⟩
  split at hpost
  · exact himp L' _ hev _ hpost
  · exact hpost

/-- The second run begins with the lineage that the first one has left. -/
theorem bind (h : Orderly w p Q L m)
    (hf : ∀ a L' m', m.Evolves L L' m' → Q L' a → Orderly (fun check => f check a) (g a) R L' m') :
    Orderly (fun check => w check >>= f check) (p >>= g) R L m := by
  obtain ⟨L₁, hev, hpost, hcheck⟩ := h
  unfold Orderly
  rw [bind_apply]
  rcases hp : p m with ⟨result, m₁⟩
  rw [hp] at hev hpost hcheck
  cases result with
  | error stop =>
    refine ⟨L₁, hev, hpost, fun check hall => ?_⟩
    show (w check >>= f check) m = _
    rw [bind_apply, hcheck check hall]
  | ok a =>
    obtain ⟨L₂, hev', hpost', hcheck'⟩ := hf a L₁ m₁ hev hpost
    refine ⟨L₂, hev.trans hev', hpost', fun check hall => ?_⟩
    -- what the first run meets is met on the way of both, and so is what the second run meets
    have hfirst : w check m = (.ok a, m₁) :=
      hcheck check fun m' hm' => hall m' (hm'.mono hev'.kept hev'.le)
    show (w check >>= f check) m = _
    rw [bind_apply, hfirst]
    exact hcheck' check fun m' hm' => hall m' (hm'.after hev.le)

theorem map {k : α → β} (h : Orderly w p Q L m) (hk : ∀ L' m', m.Evolves L L' m' → ∀ a, Q L' a → R L' (k a)) :
    Orderly (fun check => k <$> w check) (k <$> p) R L m := by
  simp only [map_eq_pure_bind]
  exact h.bind fun a L' m' hev ha => .pure hev.descends (hk L' m' hev a ha)

theorem get {f : (Machine → Bool) → Machine → Eval β} {g : Machine → Eval β}
    (h : Orderly (fun check => f check m) (g m) R L m) :
    Orderly (fun check => MonadState.get >>= f check) (MonadState.get >>= g) R L m :=
  h

theorem ensuring (hm : m.Descends L) (h : Orderly w p Q L m) :
    Orderly (fun check => .ensuring check (w check)) p Q L m := by
  obtain ⟨L', hev, hpost, hcheck⟩ := h
  refine ⟨L', hev, hpost, fun check hall => ?_⟩
  show (if check m = true then w check m else _) = _
  rw [if_pos (hall m (hm.during hev.kept hev.le))]
  exact hcheck check hall

/-! ### The heap

Each sort of cell is a birth of its own sort, with links that have to lead to what is there. -/

/-- A cell for something that can be allocated next. -/
theorem alloc (hm : m.Descends L) {b : Birth} {c : Cell} (hb : b.From L) (hshape : b.shape = c.shape)
    (hc : c.Known L) :
    OrderlyStep (alloc c) (fun L' a => a = L.length ∧ L' = L ++ [b]) L m := by
  refine of_ok rfl ⟨List.prefix_append L [b], ?_, m.heap.le_alloc c, rfl⟩ ⟨hm.heap.length.symm, rfl⟩
  exact ⟨hm.heap.alloc hb hshape hc, hm.environment.mono (List.prefix_append L [b])⟩

theorem allocFrame (hm : m.Descends L) {env : Environment} (henv : L.Sees env) {vars : Bindings Value}
    (hvars : ∀ name v, vars.get? name = some v → L.Knows v) :
    OrderlyStep (Eval.alloc (.frame vars)) (fun L' a => L'.Sees (a :: env)) L m := by
  have hbirth : Birth.From L (.frame env) := .inr henv
  refine (alloc (c := .frame vars) hm hbirth rfl hvars).mono fun L' m' _ a hnew => ?_
  obtain ⟨rfl, rfl⟩ := hnew
  exact List.getElem?_concat_length

/-- A new function in an environment. -/
theorem allocFunction (hm : m.Descends L) {env : Environment} (henv : L.Sees env) (declaration : FunDecl Hops)
    (isInitializer : Bool) :
    OrderlyStep (Eval.alloc .identity)
      (fun L' a => L'.Knows (.function ⟨a, declaration, env, isInitializer⟩)) L m := by
  have hbirth : Birth.From L (.function ⟨L.length, declaration, env, isInitializer⟩) := ⟨rfl, henv⟩
  refine (alloc (c := .identity) hm hbirth rfl trivial).mono fun L' m' _ a hnew => ?_
  obtain ⟨rfl, rfl⟩ := hnew
  exact List.getElem?_concat_length

/-- A new class is younger than its superclass and than the environment of its methods. -/
theorem allocClass (hm : m.Descends L) (name : String) {methods : Bindings Closure} {parent : Option Class}
    (hmethods : ∀ x f, methods.get? x = some f → L.Knows (.function f))
    (hparent : ∀ c ∈ parent, L.Knows (.classValue c)) :
    OrderlyStep (Eval.alloc .identity)
      (fun L' a => L'.Knows (.classValue ⟨⟨a, name, methods⟩, parent.elim [] fun c => c.own :: c.inherited⟩)) L m := by
  have hbirth : Birth.From L
      (.class ⟨⟨L.length, name, methods⟩, parent.elim [] fun c => c.own :: c.inherited⟩) := by
    refine ⟨rfl, hmethods, fun s hs => ?_⟩
    cases parent with
    | none => cases hs
    | some c =>
      cases hs
      exact hparent c rfl
  refine (alloc (c := .identity) hm hbirth rfl trivial).mono fun L' m' _ a hnew => ?_
  obtain ⟨rfl, rfl⟩ := hnew
  exact List.getElem?_concat_length

/-- A new instance of a class. -/
theorem allocObject (hm : m.Descends L) {c : Class} (hc : L.Knows (.classValue c)) :
    OrderlyStep (Eval.alloc (.fields [])) (fun L' a => L'.Knows (.object ⟨a, c⟩)) L m := by
  have hbirth : Birth.From L (.object ⟨L.length, c⟩) := ⟨rfl, hc⟩
  refine (alloc (c := .fields []) hm hbirth rfl fun name v hv => by cases hv).mono fun L' m' _ a hnew => ?_
  obtain ⟨rfl, rfl⟩ := hnew
  exact List.getElem?_concat_length

/-- A binding makes no link. -/
theorem define (hm : m.Descends L) {v : Value} (hv : L.Knows v) (a : Address) (name : String) :
    OrderlyStep (define a name v) (fun _ _ => True) L m :=
  of_ok rfl ⟨List.prefix_rfl, ⟨hm.heap.define hv a name, hm.environment⟩, m.heap.le_define a name v, rfl⟩ trivial

theorem setField (hm : m.Descends L) {v : Value} (hv : L.Knows v) (a : Address) (name : String) :
    OrderlyStep (setField a name v) (fun _ _ => True) L m :=
  of_ok rfl ⟨List.prefix_rfl, ⟨hm.heap.setField hv a name, hm.environment⟩, m.heap.le_setField a name v, rfl⟩ trivial

/-- Printing leaves the heap alone. -/
theorem print (hm : m.Descends L) (text : String) : OrderlyStep (print text) (fun _ _ => True) L m :=
  of_ok rfl ⟨List.prefix_rfl, ⟨hm.heap, hm.environment⟩, .refl _, rfl⟩ trivial

/-- The clock shows a number. -/
theorem readClock (hm : m.Descends L) (settings : Settings) :
    OrderlyStep (readClock settings) (fun L' v => L'.Knows v) L m :=
  of_ok rfl ⟨List.prefix_rfl, ⟨hm.heap, hm.environment⟩, .refl _, rfl⟩ trivial

/-! ### Environments and calls

An environment that a run goes into has to be one that the lineage sees. -/

/-- A run elsewhere; whoever asked for it is back in the old environment. -/
theorem within (hm : m.Descends L) {env : Environment} (h : Orderly w p Q L { m with environment := env }) :
    Orderly (fun check => within env (w check)) (Eval.within env p) Q L m := by
  obtain ⟨L', hev, hpost, hcheck⟩ := h
  have hrun : ∀ act : Eval α, Eval.within env act m
      = ((act { m with environment := env }).1,
        { (act { m with environment := env }).2 with environment := m.environment }) := fun _ => rfl
  unfold Orderly
  rw [hrun]
  refine ⟨L', ⟨hev.kept, ⟨hev.descends.heap, hev.sees hm.environment⟩, hev.le, rfl⟩, hpost, fun check hall => ?_⟩
  show Eval.within env (w check) m = _
  rw [hrun, hcheck check hall]

/-- Too deep a nesting becomes a mistake about the stack, and not about a variable. -/
theorem overflowAt {token : Token} (h : Orderly w p Q L m) :
    Orderly (fun check => overflowAt token (w check)) (Eval.overflowAt token p) Q L m := by
  obtain ⟨L', hev, hpost, hcheck⟩ := h
  have hsame : ∀ check, w check m = p m → Eval.overflowAt token (w check) m = Eval.overflowAt token p m := by
    intro check heq
    rw [Eval.overflowAt, Eval.overflowAt, heq]
  unfold Orderly
  revert hev hpost hcheck hsame
  rw [Eval.overflowAt]
  rcases p m with ⟨result, m'⟩
  intro hev hpost hcheck hsame
  -- only a stop for depth is turned into another one, and that one names nothing
  match result with
  | .ok a => exact ⟨L', hev, hpost, fun check hall => hsame check (hcheck check hall)⟩
  | .error (.error _) | .error (.fault _) | .error .tooLong =>
    exact ⟨L', hev, hpost, fun check hall => hsame check (hcheck check hall)⟩
  | .error .tooDeep =>
    refine ⟨L', hev, ?_, fun check hall => hsame check (hcheck check hall)⟩
    rintro name ⟨_, hmisses⟩
    cases hmisses

/-! ### Variables

An undefined variable is one that the globals do not bind, since every environment ends there. -/

/-- A name that no frame of an environment binds is none of the globals. -/
theorem not_binds_globals (hm : m.Descends L) {env : Environment} (henv : L.Sees env) {name : String}
    (hnone : ∀ a ∈ env, (m.heap.vars a).get? name = none) : ¬ m.heap.Binds 0 name := by
  rw [Heap.Binds, hnone 0 (hm.heap.ordered.globals_mem henv)]
  exact Bool.false_ne_true

/-- The search goes through the whole environment. -/
theorem read (hm : m.Descends L) {env : Environment} (henv : L.Sees env) (name : Token) :
    OrderlyStep (read env name) Lineage.Knows L m := by
  refine get ?_
  cases hget : env.get? m.heap name.lexeme with
  | none =>
    refine fail hm name fun x hx => ?_
    cases hx
    exact not_binds_globals hm henv (List.findSome?_eq_none_iff.mp hget)
  | some v =>
    obtain ⟨a, -, ha⟩ := List.exists_of_findSome?_eq_some hget
    exact pure hm (hm.heap.vars ha)

theorem assign (hm : m.Descends L) {env : Environment} (henv : L.Sees env) (name : Token) {v : Value}
    (hv : L.Knows v) : OrderlyStep (assign env name v) (fun _ _ => True) L m := by
  refine get ?_
  cases hholder : env.holder? m.heap name.lexeme with
  | none =>
    refine fail hm name fun x hx => ?_
    cases hx
    refine not_binds_globals hm henv fun a ha => ?_
    simpa using List.find?_eq_none.mp hholder a ha
  | some a => exact define hm hv a name.lexeme

/-- A distance may lead to nothing, which is a fault. -/
theorem readAt (hm : m.Descends L) (env : Environment) (d : Nat) (name : String) :
    OrderlyStep (readAt env d name) Lineage.Knows L m := by
  refine get ?_
  cases hget : env.getAt m.heap d name with
  | error f => exact fault hm f
  | ok v =>
    obtain ⟨a, ha⟩ := Environment.exists_of_getAt hget
    exact pure hm (hm.heap.vars ha)

/-- A binding by distance makes no link. -/
theorem assignAt (hm : m.Descends L) (env : Environment) (d : Nat) (name : String) {v : Value} (hv : L.Knows v) :
    OrderlyStep (assignAt env d name v) (fun _ _ => True) L m := by
  unfold Eval.assignAt
  cases env.frameAt d with
  | error f => exact fault hm f
  | ok a => exact define hm hv a name

theorem declare (hm : m.Descends L) (name : Token) {v : Value} (hv : L.Knows v) :
    OrderlyStep (declare name v) (fun _ _ => True) L m := by
  refine get ?_
  cases m.environment with
  | nil => exact pure hm trivial
  | cons a env => exact define hm hv a name.lexeme

/-! ### Operators

Operators give plain values, and their mistakes are not about variables. -/

theorem unary (hm : m.Descends L) (operator : Token) (right : Value) :
    OrderlyStep (unary operator right) Lineage.Knows L m := by
  unfold Eval.unary
  split
  · exact pure hm trivial
  · split
    · exact pure hm trivial
    · exact fail hm operator fun name h => by cases h
  · exact fault hm _

theorem add (hm : m.Descends L) (operator : Token) (left right : Value) :
    OrderlyStep (add operator left right) Lineage.Knows L m := by
  unfold Eval.add
  split
  · exact pure hm trivial
  · exact pure hm trivial
  · exact fail hm operator fun name h => by cases h

/-- The operators that take two numbers. -/
theorem arithmetic (hm : m.Descends L) (operator : Token) (x y : Float) :
    OrderlyStep (arithmetic operator x y) Lineage.Knows L m := by
  unfold Eval.arithmetic
  split
  all_goals first | exact pure hm trivial | exact fault hm _

theorem binary (hm : m.Descends L) (operator : Token) (left right : Value) :
    OrderlyStep (binary operator left right) Lineage.Knows L m := by
  unfold Eval.binary
  split
  · exact pure hm trivial
  · exact pure hm trivial
  · exact add hm operator left right
  · split
    · exact arithmetic hm operator _ _
    · exact fail hm operator fun name h => by cases h

end Orderly

end Eval

end LoxLang
