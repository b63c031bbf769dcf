import LoxLang.Proofs.Run.Mapped

/-!
# Other notes in code

Values carry code: functions their declarations, classes and instances their methods. So notes can be changed not only
in programs but in values and on whole machines.

* **`Machine.mapNotes`** — a machine with every note in its code changed.
* **`Machine.mapNotes_mapNotes`** — one change after the other is a change.
-/

namespace LoxLang

/-- What a note means. -/
abbrev View := Hops → Hops

/-- A reference that is seen through a view. -/
def Reference.through (view : View) (r : Reference Hops) : Reference Hops :=
  ⟨r.name, view r.note⟩

/-! ## Trees

Two changes of notes are one change. This is what makes it possible to file code that has been filed before. -/

section

variable {ρ σ τ : Type} (f : ρ → σ) (g : σ → τ)

mutual

theorem Expr.mapNotes_mapNotes (e : Expr ρ) : (e.mapNotes f).mapNotes g = e.mapNotes (g ∘ f) := by
  cases e with
  | binary left operator right | logical left operator right =>
    simp only [Expr.mapNotes, Expr.mapNotes_mapNotes left, Expr.mapNotes_mapNotes right]
  | call callee paren arguments =>
    simp only [Expr.mapNotes, Expr.mapNotes_mapNotes callee, Expr.mapAll_mapAll arguments]
  | set object name value => simp only [Expr.mapNotes, Expr.mapNotes_mapNotes object, Expr.mapNotes_mapNotes value]
  | assign target e | get e name | grouping e | unary operator e =>
    simp only [Expr.mapNotes, Expr.mapNotes_mapNotes e, Function.comp_apply]
  | literal | super | this | «variable» | unknown => rfl

theorem Expr.mapAll_mapAll (es : List (Expr ρ)) :
    Expr.mapNotes.mapAll g (Expr.mapNotes.mapAll f es) = Expr.mapNotes.mapAll (g ∘ f) es := by
  cases es with
  | nil => rfl
  | cons e es => simp only [Expr.mapNotes.mapAll, Expr.mapNotes_mapNotes e, Expr.mapAll_mapAll es]

end

theorem Expr.map_mapNotes_mapNotes (e? : Option (Expr ρ)) :
    (e?.map (·.mapNotes f)).map (·.mapNotes g) = e?.map (·.mapNotes (g ∘ f)) := by
  cases e? with
  | none => rfl
  | some e => exact congrArg some (Expr.mapNotes_mapNotes f g e)

mutual

/-- Changing the notes of a statement twice is changing them once, by both functions. -/
theorem Stmt.mapNotes_mapNotes (s : Stmt ρ) : (s.mapNotes f).mapNotes g = s.mapNotes (g ∘ f) := by
  cases s with
  | block body => simp only [Stmt.mapNotes, Stmt.mapAllNotes_mapAllNotes body]
  | expression value | print value => simp only [Stmt.mapNotes, Expr.mapNotes_mapNotes]
  | function declaration => simp only [Stmt.mapNotes, FunDecl.mapNotes_mapNotes declaration]
  | «class» name superclass methods =>
    simp only [Stmt.mapNotes, Option.map_map, FunDecl.mapAllNotes_mapAllNotes methods]
    rfl
  | «if» condition thenBranch elseBranch =>
    cases elseBranch with
    | none => simp only [Stmt.mapNotes, Expr.mapNotes_mapNotes, Stmt.mapNotes_mapNotes thenBranch]
    | some s =>
      simp only [Stmt.mapNotes, Expr.mapNotes_mapNotes, Stmt.mapNotes_mapNotes thenBranch, Stmt.mapNotes_mapNotes s]
  | «return» keyword value => simp only [Stmt.mapNotes, Expr.map_mapNotes_mapNotes]
  | var name initializer => simp only [Stmt.mapNotes, Expr.map_mapNotes_mapNotes]
  | «while» condition body => simp only [Stmt.mapNotes, Expr.mapNotes_mapNotes, Stmt.mapNotes_mapNotes body]
  | unknown => rfl

theorem Stmt.mapAllNotes_mapAllNotes (ss : List (Stmt ρ)) :
    Stmt.mapAllNotes g (Stmt.mapAllNotes f ss) = Stmt.mapAllNotes (g ∘ f) ss := by
  cases ss with
  | nil => rfl
  | cons s ss => simp only [Stmt.mapAllNotes, Stmt.mapNotes_mapNotes s, Stmt.mapAllNotes_mapAllNotes ss]

theorem FunDecl.mapNotes_mapNotes (d : FunDecl ρ) : (d.mapNotes f).mapNotes g = d.mapNotes (g ∘ f) := by
  obtain ⟨name, params, body⟩ := d
  simp only [FunDecl.mapNotes, Stmt.mapAllNotes_mapAllNotes body]

theorem FunDecl.mapAllNotes_mapAllNotes (ds : List (FunDecl ρ)) :
    FunDecl.mapAllNotes g (FunDecl.mapAllNotes f ds) = FunDecl.mapAllNotes (g ∘ f) ds := by
  cases ds with
  | nil => rfl
  | cons d ds => simp only [FunDecl.mapAllNotes, FunDecl.mapNotes_mapNotes d, FunDecl.mapAllNotes_mapAllNotes ds]

end

end

/-! ## Values and machines

Notes are changed wherever a value carries code, and everywhere on a heap. -/

section

variable (f : View)

/-- A function with every note in its code changed. -/
def Closure.mapNotes (c : Closure) : Closure :=
  { c with declaration := c.declaration.mapNotes f }

/-- A layer of a class with every note in its methods changed. -/
def ClassLayer.mapNotes (layer : ClassLayer) : ClassLayer :=
  { layer with methods := layer.methods.mapValues (·.mapNotes f) }

/-- A class with every note in its methods changed. -/
def Class.mapNotes (c : Class) : Class :=
  ⟨c.own.mapNotes f, c.inherited.map (·.mapNotes f)⟩

/-- A value with every note in its code changed. -/
def Value.mapNotes : Value → Value
  | .function c => .function (c.mapNotes f)
  | .classValue c => .classValue (c.mapNotes f)
  | .object i => .object ⟨i.address, i.origin.mapNotes f⟩
  | v => v

def Completion.mapNotes : Completion → Completion
  | .completed => .completed
  | .returning v => .returning (v.mapNotes f)

/-- A machine with every note in its code changed. -/
abbrev Machine.mapNotes (m : Machine) : Machine :=
  m.mapValues (·.mapNotes f)

/-- The name of a function has no note. -/
@[simp] theorem FunDecl.name_mapNotes {ρ σ : Type} (f : ρ → σ) (d : FunDecl ρ) : (d.mapNotes f).name = d.name := by
  cases d
  rfl

@[simp] theorem FunDecl.params_mapNotes {ρ σ : Type} (f : ρ → σ) (d : FunDecl ρ) :
    (d.mapNotes f).params = d.params := by
  cases d
  rfl

/-- Its body is changed statement by statement. -/
@[simp] theorem FunDecl.body_mapNotes {ρ σ : Type} (f : ρ → σ) (d : FunDecl ρ) :
    (d.mapNotes f).body = Stmt.mapAllNotes f d.body := by
  cases d
  rfl

/-! ### One change after the other

What holds for trees holds for all that carries them. -/

section

variable (g : View)

/-- In a function that was made. -/
theorem Closure.mapNotes_mapNotes (c : Closure) : (c.mapNotes f).mapNotes g = c.mapNotes (g ∘ f) := by
  obtain ⟨declaration, env, isInitializer, address⟩ := c
  simp only [Closure.mapNotes, FunDecl.mapNotes_mapNotes]

theorem ClassLayer.mapNotes_mapNotes (layer : ClassLayer) :
    (layer.mapNotes f).mapNotes g = layer.mapNotes (g ∘ f) := by
  obtain ⟨address, name, methods⟩ := layer
  simp only [ClassLayer.mapNotes, Bindings.mapValues_mapValues, Closure.mapNotes_mapNotes]

/-- In a class with those that it extends. -/
theorem Class.mapNotes_mapNotes (c : Class) : (c.mapNotes f).mapNotes g = c.mapNotes (g ∘ f) := by
  obtain ⟨own, inherited⟩ := c
  simp only [Class.mapNotes, List.map_map, Function.comp_def, ClassLayer.mapNotes_mapNotes]

theorem Value.mapNotes_mapNotes (v : Value) : (v.mapNotes f).mapNotes g = v.mapNotes (g ∘ f) := by
  cases v with
  | function c => exact congrArg Value.function (c.mapNotes_mapNotes f g)
  | classValue c => exact congrArg Value.classValue (c.mapNotes_mapNotes f g)
  | object i => exact congrArg (fun c => Value.object ⟨i.address, c⟩) (i.origin.mapNotes_mapNotes f g)
  | nil | bool | number | string | clock => rfl

theorem Machine.mapNotes_mapNotes (m : Machine) : (m.mapNotes f).mapNotes g = m.mapNotes (g ∘ f) := by
  rw [Machine.mapNotes, Machine.mapNotes, Machine.mapValues_mapValues]
  exact congrArg (m.mapValues ·) (funext fun v => v.mapNotes_mapNotes f g)

end

/-! ### What does not depend on notes

What a program can see of a value. -/

/-- How many arguments a function takes. -/
theorem Closure.arity_mapNotes (c : Closure) : (c.mapNotes f).arity = c.arity := by
  show (c.declaration.mapNotes f).params.length = _
  rw [FunDecl.params_mapNotes]
  rfl

/-- Which class has a method of a name. -/
theorem Class.findMethod?_mapNotes (c : Class) (name : String) :
    (c.mapNotes f).findMethod? name = (c.findMethod? name).map (·.mapNotes f) := by
  show ((c.own :: c.inherited).map (·.mapNotes f)).findSome? (·.methods.get? name) = _
  rw [Class.findMethod?]
  induction c.own :: c.inherited with
  | nil => rfl
  | cons layer layers ih =>
    have hlayer : (layer.mapNotes f).methods.get? name = (layer.methods.get? name).map (·.mapNotes f) :=
      Bindings.get?_mapValues _ _ name
    rw [List.map_cons, List.findSome?_cons, List.findSome?_cons, ih, hlayer]
    cases layer.methods.get? name <;> rfl

/-- How many arguments a class takes. -/
theorem Class.arity_mapNotes (c : Class) : (c.mapNotes f).arity = c.arity := by
  rw [Class.arity, Class.arity, Class.initializer?, Class.initializer?, Class.findMethod?_mapNotes]
  cases c.findMethod? "init" with
  | none => rfl
  | some g => exact Closure.arity_mapNotes f g

namespace Value

theorem text_mapNotes (v : Value) : (v.mapNotes f).text = v.text := by
  cases v with
  | function c =>
    show "<fn " ++ (c.declaration.mapNotes f).name.lexeme ++ ">" = _
    rw [FunDecl.name_mapNotes]
    rfl
  | _ => rfl

@[simp] theorem isTruthy_mapNotes (v : Value) : (v.mapNotes f).isTruthy = v.isTruthy := by
  cases v <;> rfl

theorem arity?_mapNotes (v : Value) : (v.mapNotes f).arity? = v.arity? := by
  cases v with
  | function c => exact congrArg some (Closure.arity_mapNotes f c)
  | classValue c => exact congrArg some (Class.arity_mapNotes f c)
  | _ => rfl

theorem equals_mapNotes (v w : Value) : (v.mapNotes f).equals (w.mapNotes f) = v.equals w := by
  cases v <;> cases w <;> rfl

end Value

end

end LoxLang
