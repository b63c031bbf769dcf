import LoxLang.Proofs.Receiver.AtHome
import LoxLang.Proofs.Run.Valid

/-!
# Homes and frames

The invariant that ties homes to frames: where a function may say `this` or `super`, the frames that the resolver has
counted to bind what its home says.

* **`Home.Fits`** — a home and the environment of a piece of code say the same.
* **`Heap.Housed`** — so it is for every function that the heap holds.
* **`Heap.Tends`** — what the growth of a heap leaves alone: bindings of `this` and `super`, and homes.

The frames of `this` and `super` are never written to after they are made, for no declaration and no assignment has one
of those names.
-/

namespace LoxLang

/-- The words that only the frames of classes and methods bind. -/
def IsWord (name : String) : Prop :=
  name = "this" ∨ name = "super"

/-- Names of a program are not words of classes. -/
theorem Token.IsName.not_isWord {t : Token} (ht : t.IsName) : ¬ IsWord t.lexeme :=
  fun hword => hword.elim ht.1 ht.2

/-! ## Homes that fit

A home says what `this` and `super` mean, and an environment shows it at the distances that the scopes tell. Both may
change while a program runs, but never what a frame binds to the words. -/

/-- The frame so many steps out binds the name to the value. -/
def Environment.Shows (env : Environment) (h : Heap) (distance : Nat) (name : String) (v : Value) : Prop :=
  ∃ a, env[distance]? = some a ∧ (h.vars a).get? name = some v

/-- Within scopes that know of `this`, the home has an instance, and the frame of `this` binds it. If `super` stands
just outside of it, the home has a class, and the frame of `super` binds that. -/
structure Home.Fits (home : Home) (h : Heap) (env : Environment) (S : Scopes) : Prop where
  this : ∀ {n}, S.hops "this" = some n → ∃ i, home.receiver? = some i ∧ env.Shows h n "this" (.object i)
  super : ∀ {n}, S.hops "this" = some n → S.hops "super" = some (n + 1) →
    ∃ c, home.superclass? = some c ∧ env.Shows h (n + 1) "super" (.classValue c)

/-- What the growth of a heap leaves alone. -/
structure Heap.Tends (h : Heap) (homes : Homes) (h' : Heap) (homes' : Homes) : Prop where
  size : h.cells.size ≤ h'.cells.size
  words : ∀ {a name v}, IsWord name → (h.vars a).get? name = some v → (h'.vars a).get? name = some v
  homes : ∀ {a}, a < h.cells.size → homes' a = homes a

variable {h h' h'' : Heap} {homes homes' homes'' : Homes}

namespace Heap.Tends

theorem refl (h : Heap) (homes : Homes) : h.Tends homes h homes :=
  ⟨Nat.le_refl _, fun _ hv => hv, fun _ => rfl⟩

theorem trans (h₁ : h.Tends homes h' homes') (h₂ : h'.Tends homes' h'' homes'') : h.Tends homes h'' homes'' where
  size := h₁.size.trans h₂.size
  words hword hv := h₂.words hword (h₁.words hword hv)
  homes ha := (h₂.homes (Nat.lt_of_lt_of_le ha h₁.size)).trans (h₁.homes ha)

/-- A new cell leaves the others alone. -/
theorem alloc (h : Heap) (homes : Homes) (c : Cell) : h.Tends homes (h.alloc c).2 homes := by
  refine ⟨?_, fun {a name v} _ hv => ?_, fun _ => rfl⟩
  · show h.cells.size ≤ (h.cells.push c).size
    rw [Array.size_push]
    omega
  · have hlt : a < h.cells.size := Heap.IsFrame.lt_size (Heap.Binds.isFrame (Option.isSome_of_eq_some hv))
    rwa [Heap.vars_alloc, if_neg (Nat.ne_of_lt hlt)]

/-- A new function gets a home. -/
theorem settle (h : Heap) (homes : Homes) (home : Home) :
    h.Tends homes (h.alloc .identity).2 (Function.update homes h.cells.size home) where
  size := (alloc h homes .identity).size
  words := (alloc h homes .identity).words
  homes ha := Function.update_of_ne (Nat.ne_of_lt ha) _ _

/-- A name that is no word leaves the words alone. -/
theorem define (h : Heap) (homes : Homes) (a : Address) {name : String} (hname : ¬ IsWord name) (v : Value) :
    h.Tends homes (h.define a name v) homes := by
  by_cases hf : h.IsFrame a
  · refine ⟨?_, fun {b other w} hword hw => ?_, fun _ => rfl⟩
    · show h.cells.size ≤ (h.cells.modify a _).size
      rw [Array.size_modify]
    · have hne : name ≠ other := fun heq => hname (heq ▸ hword)
      rw [Heap.vars_define hf, if_neg fun hboth => hne hboth.2]
      exact hw
  · rw [Heap.define_of_not_isFrame hf]
    exact refl h homes

/-- A field is no variable. -/
theorem setField (h : Heap) (homes : Homes) (a : Address) (name : String) (v : Value) :
    h.Tends homes (h.setField a name v) homes := by
  refine ⟨?_, fun {b other w} _ hw => ?_, fun _ => rfl⟩
  · show h.cells.size ≤ (h.cells.modify a _).size
    rw [Array.size_modify]
  · rwa [Heap.vars_setField]

end Heap.Tends

/-- What is shown for a word stays. -/
theorem Environment.Shows.mono {env : Environment} {n : Nat} {name : String} {v : Value}
    (hshows : env.Shows h n name v) (hname : IsWord name) (htends : h.Tends homes h' homes') :
    env.Shows h' n name v := by
  obtain ⟨a, ha, hv⟩ := hshows
  exact ⟨a, ha, htends.words hname hv⟩

/-- What a frame binds is read there. -/
theorem Environment.Shows.readAt {env : Environment} {m : Machine} {n : Nat} {name : String} {v : Value}
    (hshows : env.Shows m.heap n name v) : Eval.readAt env n name m = (.ok v, m) := by
  obtain ⟨a, ha, hv⟩ := hshows
  unfold Eval.readAt
  rw [Eval.get_bind, getAt_of_getElem? ha hv]
  rfl

/-- What is shown is found. -/
theorem Environment.Shows.find? {m : Machine} {n : Nat} {name : String} {v : Value}
    (hshows : m.environment.Shows m.heap n name v) : m.find? n name = some v := by
  obtain ⟨a, ha, hv⟩ := hshows
  have hframe : m.heap.IsFrame a := Heap.Binds.isFrame (Option.isSome_of_eq_some hv)
  unfold Machine.find? Machine.frame?
  rw [ha, Option.bind_some, hframe.cell_eq]
  exact hv

namespace Home.Fits

variable {home : Home} {env : Environment} {S : Scopes}

/-- Outside of all scopes nothing is said of a home. -/
theorem topLevel (home : Home) (h : Heap) (env : Environment) : home.Fits h env [] where
  this hthis := by cases hthis
  super hthis _ := by cases hthis

/-- A home fits for as long as the words are left alone. -/
theorem mono (hfits : home.Fits h env S) (htends : h.Tends homes h' homes') : home.Fits h' env S := by
  constructor
  · intro n hthis
    obtain ⟨i, hi, hshows⟩ := hfits.this hthis
    exact ⟨i, hi, hshows.mono (.inl rfl) htends⟩
  · intro n hthis hsuper
    obtain ⟨c, hc, hshows⟩ := hfits.super hthis hsuper
    exact ⟨c, hc, hshows.mono (.inr rfl) htends⟩

/-- Declaring a name does not move the words. -/
theorem declare {names : List String} (hfits : home.Fits h env S) (hnames : ∀ name ∈ names, ¬ IsWord name) :
    home.Fits h env (S.declare names) := by
  have hthis : (S.declare names).hops "this" = S.hops "this" :=
    Scopes.hops_declare fun hmem => hnames _ hmem (.inl rfl)
  have hsuper : (S.declare names).hops "super" = S.hops "super" :=
    Scopes.hops_declare fun hmem => hnames _ hmem (.inr rfl)
  constructor
  · rw [hthis]
    exact hfits.this
  · rw [hthis, hsuper]
    exact hfits.super

/-- In a scope that is none of a class everything lies one step further out. -/
theorem enter {names : List String} (hfits : home.Fits h env S) (hnames : ∀ name ∈ names, ¬ IsWord name)
    (a : Address) : home.Fits h (a :: env) (names :: S) := by
  have hthis : Scopes.hops (names :: S) "this" = (S.hops "this").map (· + 1) := by
    rw [Scopes.hops_cons, if_neg fun hmem => hnames _ hmem (.inl rfl)]
  have hsuper : Scopes.hops (names :: S) "super" = (S.hops "super").map (· + 1) := by
    rw [Scopes.hops_cons, if_neg fun hmem => hnames _ hmem (.inr rfl)]
  constructor
  · intro n hn
    rw [hthis] at hn
    obtain ⟨k, hk, rfl⟩ := Option.map_eq_some_iff.mp hn
    exact hfits.this hk
  · intro n hn hn'
    rw [hthis] at hn
    rw [hsuper] at hn'
    obtain ⟨k, hk, rfl⟩ := Option.map_eq_some_iff.mp hn
    obtain ⟨l, hl, hkl⟩ := Option.map_eq_some_iff.mp hn'
    obtain rfl : l = k + 1 := by omega
    exact hfits.super hk hl

end Home.Fits

/-! ## Functions with homes

By the form of the value, and through the heap for the functions that are reached from it. Methods that are not bound
lack an instance, so of their home only the superclass is known. -/

/-- A method of some name, which is not yet one for an instance. It is an initializer if it is named so. If its class
extends one, that is the class of its home and the one that the innermost frame binds. -/
def Closure.IsHousedMethod (h : Heap) (homes : Homes) (name : String) (f : Closure) : Prop :=
  f.address < h.cells.size ∧ f.isInitializer = (name == "init") ∧
    ∃ S : Scopes, f.declaration.Scoped false (["this"] :: S) ∧
      (S.hops "super" = some 0 →
        ∃ c, (homes f.address).superclass? = some c ∧ f.environment.Shows h 0 "super" (.classValue c))

/-- A function that can be called: its home fits its environment. -/
def Closure.Housed (h : Heap) (homes : Homes) (f : Closure) : Prop :=
  f.address < h.cells.size ∧ ∃ S : Scopes, f.declaration.Scoped false S ∧ (homes f.address).Fits h f.environment S ∧
    (f.isInitializer = true → S.hops "this" = some 0)

/-- All methods of a class, inherited ones too, have homes. -/
def Class.Housed (h : Heap) (homes : Homes) (c : Class) : Prop :=
  ∀ layer ∈ c.own :: c.inherited, ∀ name f, layer.methods.get? name = some f → f.IsHousedMethod h homes name

/-- A value whose functions and methods have homes, and an instance that has its cell. -/
def Value.Housed (h : Heap) (homes : Homes) : Value → Prop
  | .function f => f.Housed h homes
  | .classValue c => c.Housed h homes
  | .object i => i.address < h.cells.size ∧ i.origin.Housed h homes
  | _ => True

/-- All functions that the heap holds have homes. -/
structure Heap.Housed (h : Heap) (homes : Homes) : Prop where
  vars : ∀ {a name v}, (h.vars a).get? name = some v → v.Housed h homes
  fields : ∀ {a name v}, (h.fields a).get? name = some v → v.Housed h homes

/-- A method keeps its home. -/
theorem Closure.IsHousedMethod.mono {name : String} {f : Closure} (hf : f.IsHousedMethod h homes name)
    (htends : h.Tends homes h' homes') : f.IsHousedMethod h' homes' name := by
  obtain ⟨hlt, hinit, S, hscoped, hsuper⟩ := hf
  refine ⟨Nat.lt_of_lt_of_le hlt htends.size, hinit, S, hscoped, fun hhops => ?_⟩
  obtain ⟨c, hc, hshows⟩ := hsuper hhops
  rw [htends.homes hlt]
  exact ⟨c, hc, hshows.mono (.inr rfl) htends⟩

/-- A function keeps its home, and it fits as before. -/
theorem Closure.Housed.mono {f : Closure} (hf : f.Housed h homes) (htends : h.Tends homes h' homes') :
    f.Housed h' homes' := by
  obtain ⟨hlt, S, hscoped, hfits, hthis⟩ := hf
  refine ⟨Nat.lt_of_lt_of_le hlt htends.size, S, hscoped, ?_, hthis⟩
  rw [htends.homes hlt]
  exact hfits.mono htends

/-- So it is with all methods of a class. -/
theorem Class.Housed.mono {c : Class} (hc : c.Housed h homes) (htends : h.Tends homes h' homes') :
    c.Housed h' homes' :=
  fun layer hlayer name f hf => (hc layer hlayer name f hf).mono htends

theorem Value.Housed.mono {v : Value} (hv : v.Housed h homes) (htends : h.Tends homes h' homes') :
    v.Housed h' homes' := by
  cases v with
  | function f => exact Closure.Housed.mono hv htends
  | classValue c => exact Class.Housed.mono hv htends
  | object i => exact ⟨Nat.lt_of_lt_of_le hv.1 htends.size, Class.Housed.mono hv.2 htends⟩
  | nil | bool | number | string | clock => trivial

/-- Plain values have no functions in them. -/
theorem Value.Housed.of_isPlain {v : Value} (hv : v.IsPlain) : v.Housed h homes := by
  cases v with
  | nil | bool | number | string | clock => trivial
  | function | classValue | object => exact hv.elim

/-- Methods are found along the classes, and all of them have homes. -/
theorem Class.Housed.findMethod? {c : Class} (hc : c.Housed h homes) {name : String} {f : Closure}
    (hf : c.findMethod? name = some f) : f.IsHousedMethod h homes name := by
  obtain ⟨layer, hlayer, hget⟩ := List.exists_of_findSome?_eq_some hf
  exact hc layer hlayer name f hget

/-- A class that extends another one has its methods too. -/
theorem Class.Housed.extend {own : ClassLayer} {parent : Option Class}
    (hown : ∀ name f, own.methods.get? name = some f → f.IsHousedMethod h homes name)
    (hparent : ∀ c ∈ parent, c.Housed h homes) :
    Class.Housed h homes ⟨own, parent.elim [] fun c => c.own :: c.inherited⟩ := by
  intro layer hlayer
  rcases List.mem_cons.mp hlayer with rfl | hmem
  · exact hown
  · cases parent with
    | none => cases hmem
    | some c => exact hparent c rfl layer hmem

/-! ## What keeps a heap housed

There are three ways to write to a heap. Each keeps what is there, and what is written has a home. -/

namespace Heap.Housed

variable (hhoused : h.Housed homes)
include hhoused

/-- What is bound afterwards was bound before or has a home. -/
theorem mono (htends : h.Tends homes h' homes')
    (hvars : ∀ {a name v}, (h'.vars a).get? name = some v → v.Housed h' homes' ∨ (h.vars a).get? name = some v)
    (hfields : ∀ {a name v}, (h'.fields a).get? name = some v →
      v.Housed h' homes' ∨ (h.fields a).get? name = some v) : h'.Housed homes' where
  vars hv := (hvars hv).elim id fun hold => (hhoused.vars hold).mono htends
  fields hv := (hfields hv).elim id fun hold => (hhoused.fields hold).mono htends

/-- A new cell, with which a function may have got a home. -/
theorem alloc {c : Cell} (htends : h.Tends homes (h.alloc c).2 homes')
    (hvars : ∀ vars, c = .frame vars → ∀ name v, vars.get? name = some v → v.Housed h homes)
    (hfields : ∀ fields, c = .fields fields → fields = []) : (h.alloc c).2.Housed homes' := by
  refine hhoused.mono htends (fun {a name v} hv => ?_) fun {a name v} hv => ?_
  · rw [Heap.vars_alloc] at hv
    split at hv
    · cases c with
      | frame vars => exact .inl ((hvars vars rfl name v hv).mono htends)
      | fields | identity => cases hv
    · exact .inr hv
  · rw [Heap.fields_alloc] at hv
    split at hv
    · cases c with
      | fields fields =>
        rw [hfields fields rfl] at hv
        cases hv
      | frame | identity => cases hv
    · exact .inr hv

/-- A name is bound to a value that has a home. -/
theorem define {a : Address} {name : String} {v : Value} (hname : ¬ IsWord name)
    (hv : v.Housed (h.define a name v) homes) : (h.define a name v).Housed homes := by
  by_cases hf : h.IsFrame a
  · refine hhoused.mono (.define h homes a hname v) (fun {b other w} hw => ?_) fun {b other w} hw => ?_
    · rw [Heap.vars_define hf] at hw
      split at hw
      · rw [← Option.some.inj hw]
        exact .inl hv
      · exact .inr hw
    · rw [Heap.fields_define] at hw
      exact .inr hw
  · rwa [Heap.define_of_not_isFrame hf]

/-- A field gets a value that has a home. -/
theorem setField {v : Value} (hv : v.Housed h homes) (a : Address) (name : String) :
    (h.setField a name v).Housed homes := by
  have htends := Heap.Tends.setField h homes a name v
  refine hhoused.mono htends (fun {b other w} hw => ?_) fun {b other w} hw => ?_
  · rw [Heap.vars_setField] at hw
    exact .inr hw
  · rcases Heap.get?_fields_setField hw with ⟨-, -, rfl⟩ | hold
    · exact .inl (hv.mono htends)
    · exact .inr hold

end Heap.Housed

end LoxLang
