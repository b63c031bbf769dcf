import LoxLang.Proofs.Run.Frames
import LoxLang.Proofs.Scope.Scoped

/-!
# Environments that fit scopes

The invariant that ties the scopes of a program to the frames of its runs.

* **`Environment.Fits`** — an environment has a frame for each scope, and the frame binds what the scope declares.
* **`Value.Valid`**, **`Heap.Good`** — every function that a value or the heap holds was made from a declaration
  that fits scopes, in an environment that fits them too.
* **`Environment.Fits.binds`** — a name lies as many frames out as its scope lies scopes out.
-/

namespace LoxLang

/-! ## Environments

Scopes and frames correspond one to one, from the innermost outwards. A frame may bind more than its scope declares,
since the rest of the program is yet to be read. -/

/-- An environment has a frame for each scope, which binds what the scope declares. Outside of them lie the
globals. -/
def Environment.Fits (h : Heap) : Environment → Scopes → Prop
  | env, [] => env = .globals
  | [], _ :: _ => False
  | a :: env, scope :: S => h.IsFrame a ∧ (∀ name ∈ scope, h.Binds a name) ∧ Fits h env S

namespace Environment

variable {h h' : Heap} {env : Environment} {S : Scopes} {a : Address} {name : String}

/-- Outside of all scopes is the global frame. -/
@[simp] theorem fits_nil : env.Fits h [] ↔ env = .globals := by
  cases env <;> rfl

/-- Frames keep their names when the heap grows. -/
theorem Fits.mono (hfits : env.Fits h S) (hle : h.Le h') : env.Fits h' S := by
  induction S generalizing env with
  | nil => exact fits_nil.mpr (fits_nil.mp hfits)
  | cons scope S ih =>
    cases env with
    | nil => exact hfits.elim
    | cons a env =>
      obtain ⟨hframe, hbinds, hrest⟩ := hfits
      exact ⟨hle.frames hframe, fun name hmem => hle.bindings (hbinds name hmem), ih hrest⟩

/-- The innermost frame may bind more names than were known. -/
theorem Fits.declare {names : List String} (hfits : env.Fits h S)
    (hnames : ∀ a, env.head? = some a → h.IsFrame a → ∀ name ∈ names, h.Binds a name) :
    env.Fits h (S.declare names) := by
  cases S with
  | nil => exact hfits
  | cons scope S =>
    cases env with
    | nil => exact hfits.elim
    | cons a env =>
      obtain ⟨hframe, hbinds, hrest⟩ := hfits
      refine ⟨hframe, fun name hmem => ?_, hrest⟩
      rcases List.mem_append.mp hmem with hnew | hold
      · exact hnames a rfl hframe name hnew
      · exact hbinds name hold

/-- There is a frame for each scope. -/
theorem Fits.exists_frame (hfits : env.Fits h S) {d : Nat} (hd : d < S.length) :
    ∃ a, env[d]? = some a ∧ h.IsFrame a := by
  induction S generalizing env d with
  | nil => cases hd
  | cons scope S ih =>
    cases env with
    | nil => exact hfits.elim
    | cons a env =>
      obtain ⟨hframe, -, hrest⟩ := hfits
      cases d with
      | zero => exact ⟨a, rfl, hframe⟩
      | succ d => exact ih hrest (Nat.lt_of_succ_lt_succ hd)

/-- A name lies as many frames out as its scope lies scopes out. -/
theorem Fits.binds (hfits : env.Fits h S) {d : Nat} (hd : S.hops name = some d) :
    ∃ a, env[d]? = some a ∧ h.Binds a name := by
  induction S generalizing env d with
  | nil => cases hd
  | cons scope S ih =>
    cases env with
    | nil => exact hfits.elim
    | cons a env =>
      obtain ⟨-, hbinds, hrest⟩ := hfits
      rw [Scopes.hops_cons] at hd
      split at hd
      case isTrue hmem =>
        cases hd
        exact ⟨a, rfl, hbinds name hmem⟩
      -- further out, on both sides
      case isFalse =>
        obtain ⟨e, he, rfl⟩ := Option.map_eq_some_iff.mp hd
        exact ih hrest he

/-- The frame some steps out is an element of the environment. -/
theorem frameAt_of_getElem? {d : Nat} (ha : env[d]? = some a) : env.frameAt d = .ok a := by
  have hlt := (List.getElem?_eq_some_iff.mp ha).1
  have hdrop : env.drop d = a :: env.drop (d + 1) := by
    rw [List.drop_eq_getElem_cons hlt, (List.getElem?_eq_some_iff.mp ha).2]
  unfold frameAt ancestor
  rw [if_pos (Nat.le_of_lt hlt), hdrop]
  rfl

/-- If it binds the name then the value is found. -/
theorem getAt_of_getElem? {d : Nat} {v : Value} (ha : env[d]? = some a)
    (hv : (h.vars a).get? name = some v) : env.getAt h d name = .ok v := by
  unfold getAt
  rw [frameAt_of_getElem? ha]
  simp only [bind, Except.bind, hv]
  rfl

/-- What is read by distance is bound in some frame. -/
theorem exists_of_getAt {d : Nat} {v : Value} (hv : env.getAt h d name = .ok v) :
    ∃ a, (h.vars a).get? name = some v := by
  unfold getAt at hv
  cases hframe : env.frameAt d with
  | error f =>
    rw [hframe] at hv
    cases hv
  | ok a =>
    simp only [hframe, bind, Except.bind] at hv
    cases hget : (h.vars a).get? name with
    | none =>
      rw [hget] at hv
      cases hv
    | some w =>
      rw [hget] at hv
      cases hv
      exact ⟨a, hget⟩

end Environment

/-! ## Values and heaps

Values refer to environments through functions, so that validity depends on the heap; and since the heap only grows it
is never lost. -/

/-- A method, which is not bound yet: its declaration fits the scopes of its environment and one for `this`. -/
def Closure.IsMethod (h : Heap) (f : Closure) : Prop :=
  ∃ S, f.environment.Fits h S ∧ f.declaration.Scoped false (["this"] :: S)

/-- A function that can be called. An initializer finds its instance in the innermost frame. -/
def Closure.Valid (h : Heap) (f : Closure) : Prop :=
  ∃ S, f.environment.Fits h S ∧ f.declaration.Scoped false S ∧
    (f.isInitializer = true → ∃ S', S = ["this"] :: S')

/-- All methods of a class, inherited ones too, are methods. -/
def Class.Valid (h : Heap) (c : Class) : Prop :=
  ∀ layer ∈ c.own :: c.inherited, ∀ name f, layer.methods.get? name = some f → f.IsMethod h

/-- A value whose functions and methods fit their scopes. -/
def Value.Valid (h : Heap) : Value → Prop
  | .function f => f.Valid h
  | .classValue c => c.Valid h
  | .object i => i.origin.Valid h
  | _ => True

/-- A value that may be bound to a name: the words of classes are bound to instances and classes only. -/
structure Value.Suits (h : Heap) (name : String) (v : Value) : Prop where
  valid : v.Valid h
  this : name = "this" → ∃ i, v = .object i
  super : name = "super" → ∃ c, v = .classValue c

/-- All that the heap holds is valid. -/
structure Heap.Good (h : Heap) : Prop where
  vars : ∀ {a name v}, (h.vars a).get? name = some v → v.Suits h name
  fields : ∀ {a name v}, (h.fields a).get? name = some v → v.Valid h

section

variable {h h' : Heap}

theorem Closure.IsMethod.mono {f : Closure} (hf : f.IsMethod h) (hle : h.Le h') : f.IsMethod h' := by
  obtain ⟨S, hfits, hscoped⟩ := hf
  exact ⟨S, hfits.mono hle, hscoped⟩

theorem Closure.Valid.mono {f : Closure} (hf : f.Valid h) (hle : h.Le h') : f.Valid h' := by
  obtain ⟨S, hfits, hscoped, hthis⟩ := hf
  exact ⟨S, hfits.mono hle, hscoped, hthis⟩

theorem Class.Valid.mono {c : Class} (hc : c.Valid h) (hle : h.Le h') : c.Valid h' :=
  fun layer hlayer name f hf => (hc layer hlayer name f hf).mono hle

theorem Value.Valid.mono {v : Value} (hv : v.Valid h) (hle : h.Le h') : v.Valid h' := by
  cases v with
  | function f => exact Closure.Valid.mono hv hle
  | classValue c => exact Class.Valid.mono hv hle
  | object i => exact Class.Valid.mono hv hle
  | nil | bool | number | string | clock => trivial

/-- And it suits the names it suited. -/
theorem Value.Suits.mono {name : String} {v : Value} (hv : v.Suits h name) (hle : h.Le h') :
    v.Suits h' name :=
  ⟨hv.valid.mono hle, hv.this, hv.super⟩

/-- The words of classes are no names of a program, so that any valid value suits a name. -/
theorem Value.Valid.suits {t : Token} {v : Value} (hv : v.Valid h) (ht : t.IsName) : v.Suits h t.lexeme :=
  ⟨hv, fun hthis => absurd hthis ht.1, fun hsuper => absurd hsuper ht.2⟩

/-- Methods are found along the classes, and all of them have the same property. -/
theorem Class.Valid.findMethod? {c : Class} (hc : c.Valid h) {name : String} {f : Closure}
    (hf : c.findMethod? name = some f) : f.IsMethod h := by
  obtain ⟨layer, hlayer, hget⟩ := List.exists_of_findSome?_eq_some hf
  exact hc layer hlayer name f hget

/-- A class that extends another one has its methods too. -/
theorem Class.Valid.extend {own : ClassLayer} {parent : Option Class}
    (hown : ∀ name f, own.methods.get? name = some f → f.IsMethod h)
    (hparent : ∀ c ∈ parent, c.Valid h) :
    Class.Valid h ⟨own, parent.elim [] fun c => c.own :: c.inherited⟩ := by
  intro layer hlayer
  rcases List.mem_cons.mp hlayer with rfl | hmem
  · exact hown
  · cases parent with
    | none => cases hmem
    | some c => exact hparent c rfl layer hmem

/-! ## What keeps a heap good

There are three ways to write to a heap, and each asks for the values written to be valid. -/

/-- What was in the heap stays valid, and the new cell has been asked for. -/
theorem Heap.Good.alloc (hgood : h.Good) {c : Cell}
    (hvars : ∀ vars, c = .frame vars → ∀ name v, vars.get? name = some v → v.Suits h name)
    (hfields : ∀ fields, c = .fields fields → fields = []) : (h.alloc c).2.Good := by
  have hle := h.le_alloc c
  -- first variables, then fields; a new cell has the one or the other
  constructor
  · intro a name v hv
    rw [Heap.vars_alloc] at hv
    split at hv
    · cases c with
      | frame vars => exact (hvars vars rfl name v hv).mono hle
      | fields => cases hv
      | identity => cases hv
    · exact (hgood.vars hv).mono hle
  · intro a name v hv
    rw [Heap.fields_alloc] at hv
    split at hv
    · cases c with
      | frame vars => cases hv
      | fields fields =>
        rw [hfields fields rfl] at hv
        cases hv
      | identity => cases hv
    · exact (hgood.fields hv).mono hle

/-- The value need only be valid where it is bound already: a function sees its own name. -/
theorem Heap.Good.define (hgood : h.Good) {a : Address} {name : String} {v : Value}
    (hv : v.Suits (h.define a name v) name) : (h.define a name v).Good := by
  by_cases hf : h.IsFrame a
  · have hle := h.le_define a name v
    constructor
    · intro b other w hw
      rw [Heap.vars_define hf] at hw
      split at hw
      case isTrue hboth =>
        rw [← hboth.2, ← Option.some.inj hw]
        exact hv
      case isFalse => exact (hgood.vars hw).mono hle
    · intro b other w hw
      rw [Heap.fields_define] at hw
      exact (hgood.fields hw).mono hle
  · rwa [Heap.define_of_not_isFrame hf]

/-- The field gets a valid value, and everything else is as before. -/
theorem Heap.Good.setField (hgood : h.Good) {v : Value} (hv : v.Valid h) (a : Address) (name : String) :
    (h.setField a name v).Good := by
  have hle := h.le_setField a name v
  constructor
  · intro b other w hw
    rw [Heap.vars_setField] at hw
    exact (hgood.vars hw).mono hle
  · intro b other w hw
    rcases Heap.get?_fields_setField hw with ⟨-, -, rfl⟩ | hold
    · exact hv.mono hle
    · exact (hgood.fields hold).mono hle

end

end LoxLang
