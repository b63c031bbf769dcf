import LoxLang.Proofs.Lines.Trees
import LoxLang.Proofs.Run.Mapped
import LoxLang.Proofs.Run.Outcomes

/-!
# Machines on other lines

Values carry the code of their functions, and so do the heap and the machine. Moving that code to other lines
changes neither what is bound where nor what is printed.

* **`Machine.moved`** — a machine with the code of every value moved.
* **`Eval.Moves`** — a triple for two runs: on the moved machine the second one does what the first one does, moved.

A move is applied to code wherever a value holds some, that is in closures, and to the tokens that mistakes are
reported at. Addresses, names, numbers and texts are not touched, so that everything that a run decides on comes out
alike: truth, equality, arity, and which frame binds a name.
-/

namespace LoxLang

/-! ## Moving values

Definitions only. The heap is moved cell by cell and keeps its addresses. -/

section

variable (L : Lines)

/-- A function whose code is moved. -/
def Closure.moved (f : Closure) : Closure :=
  { f with declaration := f.declaration.moved L }

/-- A layer of a class whose methods are moved. -/
def ClassLayer.moved (layer : ClassLayer) : ClassLayer :=
  { layer with methods := layer.methods.mapValues (·.moved L) }

/-- A class whose methods are moved. -/
def Class.moved (c : Class) : Class :=
  ⟨c.own.moved L, c.inherited.map (·.moved L)⟩

/-- An instance of a moved class. -/
def Instance.moved (i : Instance) : Instance :=
  ⟨i.address, i.origin.moved L⟩

/-- A value whose code is moved. -/
def Value.moved : Value → Value
  | .function f => .function (f.moved L)
  | .classValue c => .classValue (c.moved L)
  | .object i => .object (i.moved L)
  | .nil => .nil
  | .bool b => .bool b
  | .number x => .number x
  | .string s => .string s
  | .clock => .clock

/-- A cell whose values are moved. -/
def Cell.moved : Cell → Cell
  | .frame b => .frame (b.mapValues (·.moved L))
  | .fields b => .fields (b.mapValues (·.moved L))
  | .identity => .identity

/-- A heap whose cells are moved. -/
def Heap.moved (h : Heap) : Heap :=
  ⟨h.cells.map (·.moved L)⟩

/-- A machine whose heap is moved. -/
def Machine.moved (m : Machine) : Machine :=
  { m with heap := m.heap.moved L }

/-- A stop for a mistake at a moved token, or for any other reason. -/
def Stop.moved : Stop → Stop
  | .error d => .error (d.moved L)
  | .fault f => .fault f
  | .tooDeep => .tooDeep
  | .tooLong => .tooLong

/-- What a statement ends with, with its value moved. -/
def Completion.moved : Completion → Completion
  | .completed => .completed
  | .returning v => .returning (v.moved L)

/-! ## What stays

What the evaluator asks of a value before it goes on has no lines in it. -/

/-- Moving keeps the number of the parameters. -/
theorem Closure.arity_moved (f : Closure) : (f.moved L).arity = f.arity := by
  show ((f.declaration.moved L).params).length = _
  rw [FunDecl.params_moved, List.length_map]
  rfl

/-- The class in whose layer a method is found stays the same; the method is moved. -/
theorem Class.findMethod?_moved (c : Class) (name : String) :
    (c.moved L).findMethod? name = (c.findMethod? name).map (·.moved L) := by
  show ((c.own :: c.inherited).map (·.moved L)).findSome? (·.methods.get? name) = _
  rw [Class.findMethod?]
  induction c.own :: c.inherited with
  | nil => rfl
  | cons layer layers ih =>
    have hlayer : (layer.moved L).methods.get? name = (layer.methods.get? name).map (·.moved L) :=
      Bindings.get?_mapValues _ _ name
    rw [List.map_cons, List.findSome?_cons, List.findSome?_cons, ih, hlayer]
    cases layer.methods.get? name <;> rfl

/-- A class takes the arguments of its initializer. -/
theorem Class.arity_moved (c : Class) : (c.moved L).arity = c.arity := by
  rw [Class.arity, Class.arity, Class.initializer?, Class.initializer?, Class.findMethod?_moved]
  cases c.findMethod? "init" with
  | none => rfl
  | some f => exact Closure.arity_moved L f

namespace Value

/-- What a value is printed as: functions print their names and not their lines. -/
theorem text_moved (v : Value) : (v.moved L).text = v.text := by
  cases v with
  | function f =>
    show "<fn " ++ (f.declaration.moved L).name.lexeme ++ ">" = _
    rw [FunDecl.name_moved]
    rfl
  | _ => rfl

/-- Only `nil` and `false` count as false, moved or not. -/
theorem isTruthy_moved (v : Value) : (v.moved L).isTruthy = v.isTruthy := by
  cases v <;> rfl

/-- Whether a value can be called, and with how many arguments. -/
theorem arity?_moved (v : Value) : (v.moved L).arity? = v.arity? := by
  cases v with
  | function f => exact congrArg some (Closure.arity_moved L f)
  | classValue c => exact congrArg some (Class.arity_moved L c)
  | _ => rfl

/-- Functions, classes and instances are compared by address. -/
theorem equals_moved (v w : Value) : (v.moved L).equals (w.moved L) = v.equals w := by
  cases v <;> cases w <;> rfl

end Value

/-- Literals have no code in them. -/
theorem Literal.value_moved (l : Literal) : l.value.moved L = l.value := by
  cases l <;> rfl

/-! ## The heap

Looking up and binding commute with moving, because the names and the addresses stay and each value is moved where it
is. -/

/-- A cell is moved value by value, whatever its kind. -/
theorem Cell.moved_eq (c : Cell) : c.moved L = c.mapValues (·.moved L) := by
  cases c <;> rfl

namespace Heap

variable (h : Heap)

/-- Moving is one of the changes of values. -/
theorem moved_eq : h.moved L = h.mapValues (·.moved L) := by
  unfold moved mapValues
  rw [funext (Cell.moved_eq L)]

/-- The variables of a moved frame. -/
theorem vars_moved (a : Address) : (h.moved L).vars a = (h.vars a).mapValues (·.moved L) := by
  rw [moved_eq]
  exact vars_mapValues _ h a

/-- The fields of a moved instance. -/
theorem fields_moved (a : Address) : (h.moved L).fields a = (h.fields a).mapValues (·.moved L) := by
  rw [moved_eq]
  exact fields_mapValues _ h a

/-- A new cell gets the address that it would have got. -/
theorem alloc_moved (c : Cell) : (h.moved L).alloc (c.moved L) = ((h.alloc c).1, (h.alloc c).2.moved L) := by
  rw [moved_eq, moved_eq, Cell.moved_eq]
  exact alloc_mapValues _ h c

/-- To bind a value in a frame and to move. -/
theorem define_moved (a : Address) (name : String) (v : Value) :
    (h.moved L).define a name (v.moved L) = (h.define a name v).moved L := by
  rw [moved_eq, moved_eq]
  exact define_mapValues _ h a name v

/-- To set a field and to move. -/
theorem setField_moved (a : Address) (name : String) (v : Value) :
    (h.moved L).setField a name (v.moved L) = (h.setField a name v).moved L := by
  rw [moved_eq, moved_eq]
  exact setField_mapValues _ h a name v

end Heap

namespace Environment

variable (env : Environment) (h : Heap)

/-- Which frame binds a name does not depend on what it is bound to. -/
theorem holder?_moved (name : String) : env.holder? (h.moved L) name = env.holder? h name := by
  rw [Heap.moved_eq]
  exact holder?_mapValues _ h env name

/-- The value that a name has somewhere in an environment. -/
theorem get?_moved (name : String) : env.get? (h.moved L) name = (env.get? h name).map (·.moved L) := by
  rw [Heap.moved_eq]
  exact get?_mapValues _ h env name

/-- The value that a name has so many frames out; a frame that is missing is missing in both. -/
theorem getAt_moved (distance : Nat) (name : String) :
    env.getAt (h.moved L) distance name = (env.getAt h distance name).map (·.moved L) := by
  rw [Heap.moved_eq]
  exact getAt_mapValues _ h env distance name

end Environment

/-- Moving does not show in what the globals print. -/
theorem Machine.texts_moved (m : Machine) :
    (m.moved L).globals.mapValues Value.text = m.globals.mapValues Value.text := by
  have hvars : (m.moved L).globals = m.globals.mapValues (·.moved L) := Heap.vars_moved L m.heap 0
  rw [hvars, Bindings.mapValues, Bindings.mapValues, List.map_map]
  apply List.map_congr_left
  intro binding _
  exact congrArg (binding.1, ·) (Value.text_moved L binding.2)

/-- Nothing on a new machine has any lines: its one value is the clock. -/
theorem Machine.moved_initial : Machine.initial.moved L = .initial := by
  unfold Machine.moved Heap.moved Machine.initial
  rw [List.map_toArray]
  rfl

end

/-! ## Runs

The triple says of two computations that on the moved machine the second one has the outcome of the first, moved. It
needs no precondition: moving is a function on machines and makes no assumption about them. -/

variable {L : Lines} {α β : Type}

/-- What a run leaves, moved. -/
def Eval.movedOutcome (L : Lines) (move : α → α) : Except Stop α × Machine → Except Stop α × Machine
  | (.ok a, m) => (.ok (move a), m.moved L)
  | (.error stop, m) => (.error (stop.moved L), m.moved L)

/-- On the moved machine the second run leaves what the first one leaves, moved. -/
def Eval.Moves (L : Lines) (move : α → α) (act act' : Eval α) : Prop :=
  ∀ m : Machine, act' (m.moved L) = Eval.movedOutcome L move (act m)

namespace Eval

variable {act act' : Eval α} {f f' : α → Eval β} {move : α → α} {move' : β → β}

namespace Moves

/-- A result that has been moved, on a machine that is left as it is. -/
theorem pure {a a' : α} (h : move a = a') : Moves L move (pure a) (pure a') := by
  subst h
  exact fun _ => rfl

/-- A stop is moved with the token that it is at, if it has one. -/
theorem throw (stop : Stop) : Moves L move (throw stop : Eval α) (MonadExcept.throw (stop.moved L)) :=
  fun _ => rfl

/-- A mistake is reported at the moved token. -/
theorem fail (cause : Cause) (token : Token) : Moves L move (fail cause token) (Eval.fail cause (token.moved L)) :=
  fun _ => rfl

/-- What follows gets the moved result and runs on the moved machine. -/
theorem bind (h : Moves L move act act') (hf : ∀ a, Moves L move' (f a) (f' (move a))) :
    Moves L move' (act >>= f) (act' >>= f') := by
  intro m
  rw [bind_apply, bind_apply, h m]
  rcases act m with ⟨result, m'⟩
  cases result with
  | ok a => exact hf a m'
  | error stop => rfl

theorem map {g g' : α → β} (h : Moves L move act act') (hg : ∀ a, move' (g a) = g' (move a)) :
    Moves L move' (g <$> act) (g' <$> act') := by
  rw [map_eq_pure_bind, map_eq_pure_bind]
  exact h.bind fun a => .pure (hg a)

theorem get {f f' : Machine → Eval β} (h : ∀ m, Moves L move' (f m) (f' (m.moved L))) :
    Moves L move' (MonadState.get >>= f) (MonadState.get >>= f') :=
  fun m => h m m

theorem modifyGet {g g' : Machine → α × Machine} (h : ∀ m, g' (m.moved L) = (move (g m).1, (g m).2.moved L)) :
    Moves L move (modifyGet g : Eval α) (MonadStateOf.modifyGet g') := by
  intro m
  show (Except.ok (g' (m.moved L)).1, (g' (m.moved L)).2) = _
  rw [h m]
  rfl

/-- A lookup that may fail with a fault: faults have no lines. -/
theorem ofExcept {r : Except Fault α} : Moves L move (ofExcept r) (Eval.ofExcept (r.map move)) := by
  cases r with
  | ok a => exact pure rfl
  | error f => exact throw (.fault f)

/-- The environment is set back at the end, also behind a stop; it consists of addresses, which stay. -/
theorem within {env : Environment} (h : Moves L move act act') :
    Moves L move (within env act) (Eval.within env act') := by
  intro m
  have hrun : ∀ (act : Eval α) (m : Machine), Eval.within env act m
      = ((act { m with environment := env }).1,
        { (act { m with environment := env }).2 with environment := m.environment }) := fun _ _ => rfl
  have hm : act' { m.moved L with environment := env } = movedOutcome L move (act { m with environment := env }) :=
    h { m with environment := env }
  -- environments are lists of addresses, which do not move
  rw [hrun, hrun, hm]
  rcases act { m with environment := env } with ⟨result, m'⟩
  cases result <;> rfl

/-- A stop for depth becomes a mistake at the given token, which is the moved one on the other side. -/
theorem overflowAt {token : Token} (h : Moves L move act act') :
    Moves L move (overflowAt token act) (Eval.overflowAt (token.moved L) act') := by
  intro m
  unfold Eval.overflowAt
  rw [h m]
  rcases act m with ⟨result, m'⟩
  match result with
  | .ok a => rfl
  | .error (.error d) => rfl
  | .error (.fault f) => rfl
  | .error .tooDeep => rfl
  | .error .tooLong => rfl

/-! ### The heap

Addresses, names and fields have no lines; only code in cells has. -/

/-- A new cell on both sides has the same address. -/
theorem alloc (c : Cell) : Moves L id (alloc c) (Eval.alloc (c.moved L)) := by
  apply modifyGet
  intro m
  show (((m.heap.moved L).alloc (c.moved L)).1, { m.moved L with heap := ((m.heap.moved L).alloc (c.moved L)).2 }) = _
  rw [Heap.alloc_moved]
  rfl

/-- To bind a name in a frame. -/
theorem define (a : Address) (name : String) (v : Value) :
    Moves L id (define a name v) (Eval.define a name (v.moved L)) := by
  apply modifyGet
  intro m
  show ((), { m.moved L with heap := (m.heap.moved L).define a name (v.moved L) }) = _
  rw [Heap.define_moved]
  rfl

/-- To set a field of an instance. -/
theorem setField (a : Address) (name : String) (v : Value) :
    Moves L id (setField a name v) (Eval.setField a name (v.moved L)) := by
  apply modifyGet
  intro m
  show ((), { m.moved L with heap := (m.heap.moved L).setField a name (v.moved L) }) = _
  rw [Heap.setField_moved]
  rfl

/-- What is printed has no lines. -/
theorem print (text : String) : Moves L id (print text) (Eval.print text) :=
  modifyGet fun _ => rfl

/-- The clock is read from the settings, which are the same in both runs. -/
theorem readClock (settings : Settings) : Moves L (·.moved L) (readClock settings) (Eval.readClock settings) :=
  modifyGet fun _ => rfl

/-! ### Variables

A name is looked up by its lexeme, and the line of its token is used in a complaint alone. -/

/-- A variable that is looked for through all frames; if no frame binds it, the mistake is at the moved name. -/
theorem read (env : Environment) (name : Token) :
    Moves L (·.moved L) (read env name) (Eval.read env (name.moved L)) := by
  apply get
  intro m
  have hread : env.get? (m.moved L).heap (name.moved L).lexeme = (env.get? m.heap name.lexeme).map (·.moved L) :=
    Environment.get?_moved L env m.heap name.lexeme
  rw [hread]
  cases env.get? m.heap name.lexeme with
  | none => exact fail _ _
  | some v => exact pure rfl

/-- An assignment through all frames changes the frame that binds the name. -/
theorem assign (env : Environment) (name : Token) (v : Value) :
    Moves L id (assign env name v) (Eval.assign env (name.moved L) (v.moved L)) := by
  apply get
  intro m
  have hholder : env.holder? (m.moved L).heap (name.moved L).lexeme = env.holder? m.heap name.lexeme :=
    Environment.holder?_moved L env m.heap name.lexeme
  rw [hholder]
  cases env.holder? m.heap name.lexeme with
  | none => exact fail _ _
  | some a => exact define _ _ _

/-- A variable that is read at its distance. -/
theorem readAt (env : Environment) (distance : Nat) (name : String) :
    Moves L (·.moved L) (readAt env distance name) (Eval.readAt env distance name) := by
  refine get fun m => ?_
  show Moves L _ _ (Eval.ofExcept (env.getAt (m.heap.moved L) distance name))
  rw [Environment.getAt_moved]
  exact ofExcept

theorem assignAt (env : Environment) (distance : Nat) (name : String) (v : Value) :
    Moves L id (assignAt env distance name v) (Eval.assignAt env distance name (v.moved L)) := by
  have hframe : Moves L id (Eval.ofExcept (env.frameAt distance)) (Eval.ofExcept (env.frameAt distance)) := by
    cases env.frameAt distance with
    | ok a => exact pure rfl
    | error f => exact throw (.fault f)
  exact hframe.bind fun a => define a name v

/-- A declaration binds the name in the innermost frame. -/
theorem declare (name : Token) (v : Value) :
    Moves L id (declare name v) (Eval.declare (name.moved L) (v.moved L)) := by
  apply get
  intro m
  have hsame : (m.moved L).environment = m.environment := rfl
  rw [hsame]
  cases m.environment with
  | nil => exact pure rfl
  | cons a env => exact define _ _ _

/-! ### Operators

Operators look at the sorts of their operands and at their numbers and texts. The operator's token is used for its kind
and as the place of the mistake. -/

theorem unary (operator : Token) (right : Value) :
    Moves L (·.moved L) (unary operator right) (Eval.unary (operator.moved L) (right.moved L)) := by
  unfold Eval.unary
  rw [Token.kind_moved, Token.lexeme_moved, Value.isTruthy_moved]
  split
  · exact pure rfl
  · cases right with
    | number x => exact pure rfl
    | _ => exact fail _ _
  · exact throw (.fault _)

/-- Addition is told apart by the sorts of both operands. -/
theorem add (operator : Token) (left right : Value) :
    Moves L (·.moved L) (add operator left right) (Eval.add (operator.moved L) (left.moved L) (right.moved L)) := by
  cases left with
  | number x =>
    cases right with
    | number y => exact pure rfl
    | _ => exact fail _ _
  | string s =>
    cases right with
    | string t => exact pure rfl
    | _ => exact fail _ _
  | _ => exact fail _ _

/-- The operators on two numbers, whose outcome is a number, a truth value or a mistake. -/
theorem arithmetic (operator : Token) (x y : Float) :
    Moves L (·.moved L) (arithmetic operator x y) (Eval.arithmetic (operator.moved L) x y) := by
  unfold Eval.arithmetic
  rw [Token.kind_moved, Token.lexeme_moved]
  split
  all_goals first | exact pure rfl | exact throw (.fault _)

/-- All binary operators: equality takes any operands, the others ask for numbers. -/
theorem binary (operator : Token) (left right : Value) :
    Moves L (·.moved L) (binary operator left right)
      (Eval.binary (operator.moved L) (left.moved L) (right.moved L)) := by
  unfold Eval.binary
  rw [Token.kind_moved, Value.equals_moved]
  split
  · exact pure rfl
  · exact pure rfl
  · exact add _ _ _
  · cases left with
    | number x =>
      cases right with
      | number y => exact arithmetic _ _ _
      | _ => exact fail _ _
    | _ => exact fail _ _

end Moves

end Eval

end LoxLang
