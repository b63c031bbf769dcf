import LoxLang.Proofs.Run.Frames
import LoxLang.Proofs.Scope.Scoped
import LoxLang.Run.Object

/-!
# Frames and cells side by side

A `World` says which name of which frame corresponds to which cell, and which identities correspond. Under a world
environments, functions, classes, values and heaps of the two semantics are related.

* **`Environment.Mirrors`** — an environment of frames and one of cells show the same names.
* **`Value.Alike`**, **`Heap.Alike`** — values and heaps that differ in addresses only.
* **`World.Grows`** — a world is extended. No frame gets another name but the one that is being declared in.
-/

namespace LoxLang

/-! ## Worlds

Names belong to frames and cells have one name each; that is why a place in the first heap is a frame with a name, and
in the second a cell. -/

/-- A correspondence between a heap of frames and a heap of cells. -/
structure World where
  /-- The frames of local scopes. -/
  frame : Address → Prop
  /-- The cell of a name in a frame. -/
  place : Address → String → Address → Prop
  /-- The same identity or instance on either side. -/
  twin : Address → Address → Prop
  frame_of_place : ∀ {a name c}, place a name c → frame a
  place_right : ∀ {a name c c'}, place a name c → place a name c' → c = c'
  place_left : ∀ {a name c a' name'}, place a name c → place a' name' c → a = a' ∧ name = name'
  twin_right : ∀ {b c c'}, twin b c → twin b c' → c = c'
  twin_left : ∀ {b b' c}, twin b c → twin b' c → b = b'

/-- How a world is extended while a piece of code runs. Only the frame in which the code stands may get names. -/
structure World.Grows (W W' : World) (here : Option Address) : Prop where
  frame : ∀ {a}, W.frame a → W'.frame a
  place : ∀ {a name c}, W.place a name c → W'.place a name c
  twin : ∀ {b c}, W.twin b c → W'.twin b c
  steady : ∀ {a name c}, W.frame a → here ≠ some a → W'.place a name c → W.place a name c

namespace World.Grows

variable {W W' W'' : World} {here : Option Address}

theorem refl (W : World) (here : Option Address) : W.Grows W here :=
  ⟨id, id, id, fun _ _ h => h⟩

theorem trans (h : W.Grows W' here) (h' : W'.Grows W'' here) : W.Grows W'' here where
  frame hf := h'.frame (h.frame hf)
  place hp := h'.place (h.place hp)
  twin ht := h'.twin (h.twin ht)
  steady hf hne hp := h.steady hf hne (h'.steady (h.frame hf) hne hp)

/-- If no frame has got a name then certainly no frame but one. -/
theorem weaken (h : W.Grows W' none) (here : Option Address) : W.Grows W' here :=
  ⟨h.frame, h.place, h.twin, fun hf _ hp => h.steady hf (by simp) hp⟩

/-- What happens in a frame that did not exist before does not count. -/
theorem outside {a : Address} (h : W.Grows W' (some a)) (ha : ¬ W.frame a) : W.Grows W' none := by
  refine ⟨h.frame, h.place, h.twin, fun {b _ _} hf _ hp => h.steady hf ?_ hp⟩
  intro heq
  cases heq
  exact ha hf

end World.Grows

/-! ## Environments

A frame is shown by the cells of its names, latest first. Names of a frame that have not been declared by then have no
cell. -/

/-- An environment of frames, one for each scope, and an environment of cells, one for each name of the scopes,
that correspond. -/
def Environment.Mirrors (W : World) : Scopes → Environment → Environment → Prop
  | [], env, cells => env = .globals ∧ cells = .globals
  | _ :: _, [], _ => False
  | scope :: S, a :: env, cells =>
    W.frame a ∧ ∃ inner outer, cells = inner ++ outer ∧ List.Forall₂ (W.place a) scope inner ∧
      Mirrors W S env outer

/-- A larger world shows the same, for no frame but the innermost has got a name, and the cells in front of the others
stay. -/
theorem Environment.Mirrors.mono {W W' : World} {here : Option Address} {S : Scopes} {env cells : Environment}
    (h : Environment.Mirrors W S env cells) (hgrows : W.Grows W' here) :
    Environment.Mirrors W' S env cells := by
  induction S generalizing env cells with
  | nil => exact h
  | cons scope S ih =>
    cases env with
    | nil => exact h.elim
    | cons a env =>
      obtain ⟨hframe, inner, outer, rfl, hinner, houter⟩ := h
      have hinner' : List.Forall₂ (W'.place a) scope inner := hinner.imp fun _ _ => hgrows.place
      exact ⟨hgrows.frame hframe, inner, outer, rfl, hinner', ih houter⟩

/-! ## Values

By the form of the value, as on one heap. Functions carry their declaration without notes on the side of the cells. -/

/-- Functions made from one declaration in environments that correspond. -/
structure Closure.Alike (W : World) (S : Scopes) (f g : Closure) : Prop where
  address : W.twin f.address g.address
  declaration : g.declaration = f.declaration.erased
  environment : Environment.Mirrors W S f.environment g.environment
  isInitializer : g.isInitializer = f.isInitializer

/-- Methods that are not bound yet. -/
def Closure.AlikeMethods (W : World) (f g : Closure) : Prop :=
  ∃ S, f.Alike W S g ∧ f.declaration.Scoped true (["this"] :: S)

/-- Functions that can be called. An initializer finds its instance in the innermost scope. -/
def Closure.AlikeFunctions (W : World) (f g : Closure) : Prop :=
  ∃ S, f.Alike W S g ∧ f.declaration.Scoped true S ∧
    (f.isInitializer = true → ∃ S', S = ["this"] :: S')

/-- What two classes declare themselves. -/
structure ClassLayer.Alike (W : World) (c d : ClassLayer) : Prop where
  address : W.twin c.address d.address
  name : d.name = c.name
  methods : ∀ name, Option.Rel (Closure.AlikeMethods W) (c.methods.get? name) (d.methods.get? name)

/-- Classes that are alike layer by layer. -/
structure Class.Alike (W : World) (c d : Class) : Prop where
  own : c.own.Alike W d.own
  inherited : List.Forall₂ (ClassLayer.Alike W) c.inherited d.inherited

/-- Values that differ in addresses only. -/
inductive Value.Alike (W : World) : Value → Value → Prop where
  | nil : Alike W .nil .nil
  | bool (b : Bool) : Alike W (.bool b) (.bool b)
  | number (x : Float) : Alike W (.number x) (.number x)
  | string (s : String) : Alike W (.string s) (.string s)
  | clock : Alike W .clock .clock
  | function {f g : Closure} (h : f.AlikeFunctions W g) : Alike W (.function f) (.function g)
  | classValue {c d : Class} (h : c.Alike W d) : Alike W (.classValue c) (.classValue d)
  | object {i j : Instance} (haddress : W.twin i.address j.address) (h : i.origin.Alike W j.origin) :
    Alike W (.object i) (.object j)

section

variable {W W' : World} {here : Option Address}

theorem Closure.Alike.mono {S : Scopes} {f g : Closure} (h : f.Alike W S g) (hgrows : W.Grows W' here) :
    f.Alike W' S g :=
  ⟨hgrows.twin h.address, h.declaration, h.environment.mono hgrows, h.isInitializer⟩

theorem Closure.AlikeMethods.mono {f g : Closure} (h : f.AlikeMethods W g) (hgrows : W.Grows W' here) :
    f.AlikeMethods W' g := by
  obtain ⟨S, halike, hscoped⟩ := h
  exact ⟨S, halike.mono hgrows, hscoped⟩

theorem Closure.AlikeFunctions.mono {f g : Closure} (h : f.AlikeFunctions W g) (hgrows : W.Grows W' here) :
    f.AlikeFunctions W' g := by
  obtain ⟨S, halike, hscoped, hthis⟩ := h
  exact ⟨S, halike.mono hgrows, hscoped, hthis⟩

theorem ClassLayer.Alike.mono {c d : ClassLayer} (h : c.Alike W d) (hgrows : W.Grows W' here) :
    c.Alike W' d :=
  ⟨hgrows.twin h.address, h.name, fun name => optionRel_imp (h.methods name) fun _ _ hf => hf.mono hgrows⟩

theorem Class.Alike.mono {c d : Class} (h : c.Alike W d) (hgrows : W.Grows W' here) : c.Alike W' d :=
  ⟨h.own.mono hgrows, h.inherited.imp fun _ _ hl => hl.mono hgrows⟩

theorem Value.Alike.mono {v w : Value} (h : v.Alike W w) (hgrows : W.Grows W' here) : v.Alike W' w := by
  cases h with
  | nil => exact .nil
  | bool b => exact .bool b
  | number x => exact .number x
  | string s => exact .string s
  | clock => exact .clock
  | function h => exact .function (h.mono hgrows)
  | classValue h => exact .classValue (h.mono hgrows)
  | object haddress h => exact .object (hgrows.twin haddress) (h.mono hgrows)

/-! ### What is seen of a value

Nothing of what a program sees of a value depends on addresses or notes. -/

theorem Value.Alike.isTruthy_eq {v w : Value} (h : v.Alike W w) : w.isTruthy = v.isTruthy := by
  cases h <;> rfl

theorem Value.Alike.text_eq {v w : Value} (h : v.Alike W w) : w.text = v.text := by
  cases h with
  | function h =>
    obtain ⟨S, halike, -⟩ := h
    rw [Value.text, Value.text, halike.declaration, FunDecl.erased_name]
  | classValue h => exact h.own.name
  | object haddress h => rw [Value.text, Value.text, h.own.name]
  | _ => rfl

/-- Identities correspond one to one, so equality is the same on either side. -/
theorem Value.Alike.equals_eq {v v' w w' : Value} (h : v.Alike W w) (h' : v'.Alike W w') :
    w.equals w' = v.equals v' := by
  -- two identities are equal on one side exactly if those that correspond are
  have haddress : ∀ {a b c d : Address}, W.twin a c → W.twin b d → (c == d) = (a == b) := by
    intro a b c d hac hbd
    by_cases hab : a = b
    · subst hab
      rw [W.twin_right hac hbd, beq_self_eq_true, beq_self_eq_true]
    · have hcd : c ≠ d := by
        rintro rfl
        exact hab (W.twin_left hac hbd)
      rw [beq_false_of_ne hab, beq_false_of_ne hcd]
  cases h with
  | function h =>
    cases h' with
    | function h' =>
      obtain ⟨_, halike, -⟩ := h
      obtain ⟨_, halike', -⟩ := h'
      exact haddress halike.address halike'.address
    | _ => rfl
  | classValue h =>
    cases h' with
    | classValue h' => exact haddress h.own.address h'.own.address
    | _ => rfl
  | object hi h =>
    cases h' with
    | object hj h' => exact haddress hi hj
    | _ => rfl
  | _ => cases h' <;> rfl

theorem Class.Alike.findMethod? {c d : Class} (h : c.Alike W d) (name : String) :
    Option.Rel (Closure.AlikeMethods W) (c.findMethod? name) (d.findMethod? name) := by
  have hlayers : List.Forall₂ (ClassLayer.Alike W) (c.own :: c.inherited) (d.own :: d.inherited) :=
    .cons h.own h.inherited
  exact optionRel_findSome? hlayers fun _ _ hl => hl.methods name

theorem Closure.Alike.arity_eq {S : Scopes} {f g : Closure} (h : f.Alike W S g) : g.arity = f.arity := by
  rw [Closure.arity, Closure.arity, h.declaration, FunDecl.erased_params]

theorem Class.Alike.arity_eq {c d : Class} (h : c.Alike W d) : d.arity = c.arity := by
  have hinit := h.findMethod? "init"
  unfold Class.arity Class.initializer?
  revert hinit
  cases c.findMethod? "init" <;> cases d.findMethod? "init" <;> intro hinit <;> cases hinit
  · rfl
  · next hf =>
    obtain ⟨_, halike, -⟩ := hf
    exact halike.arity_eq

theorem Value.Alike.arity?_eq {v w : Value} (h : v.Alike W w) : w.arity? = v.arity? := by
  cases h with
  | function h =>
    obtain ⟨_, halike, -⟩ := h
    exact congrArg some halike.arity_eq
  | classValue h => exact congrArg some h.arity_eq
  | _ => rfl

end

end LoxLang
