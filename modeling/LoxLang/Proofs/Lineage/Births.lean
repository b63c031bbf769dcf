import LoxLang.Heap
import Mathlib.Data.List.Basic

/-!
# Lineages

Environments and classes are lists: a frame does not say which frame is around it, nor a class which class it extends.
A lineage says so. It has for each address what was allocated there, with links to what had been allocated before.

* **`Lineage.Ordered`** — all links lead to what is older.
* **`Lineage.Knows`**, **`Lineage.Sees`** — a value, and an environment, that are made up of what was allocated.
* **`Searches`** — a walk along links until something is found. If links lead to what is older, it comes to an end.
* **`Lineage.searches_environment`**, **`Lineage.searches_methods`** — a look through an environment, or through the
  layers of a class, is such a walk.
-/

namespace LoxLang

/-- What was allocated at an address. -/
inductive Birth where
  /-- A frame inside an environment. The globals are inside of nothing. -/
  | frame (around : Environment)
  | function (f : Closure)
  | class (c : Class)
  | object (i : Instance)

/-- What was allocated, in the order of the addresses. -/
abbrev Lineage := List Birth

namespace Lineage

/-- A value that was allocated just as it is, unless it needs no allocation. -/
def Knows (L : Lineage) : Value → Prop
  | .function f => L[f.address]? = some (.function f)
  | .classValue c => L[c.own.address]? = some (.class c)
  | .object i => L[i.address]? = some (.object i)
  | _ => True

/-- An environment that is a frame together with what it was put inside. -/
def Sees (L : Lineage) : Environment → Prop
  | [] => False
  | a :: around => L[a]? = some (.frame around)

end Lineage

/-- What can be allocated at the next address of a lineage: all that it refers to is there already. -/
def Birth.From (L : Lineage) : Birth → Prop
  | .frame around => around = [] ∧ L = [] ∨ L.Sees around
  | .function f => f.address = L.length ∧ L.Sees f.environment
  | .class c =>
    c.own.address = L.length ∧ (∀ name f, c.own.methods.get? name = some f → L.Knows (.function f)) ∧
      ∀ s, c.superclass? = some s → L.Knows (.classValue s)
  | .object i => i.address = L.length ∧ L.Knows (.classValue i.origin)

namespace Lineage

/-- All that was allocated refers only to what had been allocated before. -/
def Ordered (L : Lineage) : Prop :=
  ∀ (a : Address) (b : Birth), L[a]? = some b → b.From (L.take a)

variable {L L' : Lineage} {v : Value} {env : Environment} {a : Address} {b : Birth}

/-! ## Growth

A lineage grows at its end, so that addresses keep what they have. -/

/-- What was allocated stays what it is. -/
theorem kept (hle : L <+: L') (ha : L[a]? = some b) : L'[a]? = some b := by
  obtain ⟨new, rfl⟩ := hle
  rw [List.getElem?_append_left (List.getElem?_eq_some_iff.mp ha).1]
  exact ha

/-- What is known stays known. -/
theorem Knows.mono (h : L.Knows v) (hle : L <+: L') : L'.Knows v := by
  cases v with
  | function f => exact kept hle h
  | classValue c => exact kept hle h
  | object i => exact kept hle h
  | nil | bool | number | string | clock => trivial

/-- What is seen stays seen. -/
theorem Sees.mono (h : L.Sees env) (hle : L <+: L') : L'.Sees env := by
  cases env with
  | nil => exact h
  | cons a around => exact kept hle h

/-- What is born from what is there keeps the order. -/
theorem Ordered.snoc (h : L.Ordered) (hb : b.From L) : Ordered (L ++ [b]) := by
  intro a b' ha
  rcases Nat.lt_trichotomy a L.length with hlt | rfl | hgt
  · rw [List.getElem?_append_left hlt] at ha
    rw [List.take_append_of_le_length (Nat.le_of_lt hlt)]
    exact h a b' ha
  · rw [List.getElem?_concat_length] at ha
    cases ha
    rw [List.take_left]
    exact hb
  · rw [List.getElem?_eq_none (by rw [List.length_append, List.length_singleton]; exact hgt)] at ha
    cases ha

/-! ## What is known of what was allocated

From the order it follows that everything reachable from a known value is known. -/

/-- What lies at an address was born from what was there before. -/
theorem Ordered.from (h : L.Ordered) (ha : L[a]? = some b) : b.From (L.take a) :=
  h a b ha

theorem Ordered.sees (h : L.Ordered) {f : Closure} (hf : L.Knows (.function f)) : L.Sees f.environment :=
  (h.from hf).2.mono (List.take_prefix _ L)

theorem Ordered.origin (h : L.Ordered) {i : Instance} (hi : L.Knows (.object i)) : L.Knows (.classValue i.origin) :=
  (h.from hi).2.mono (List.take_prefix _ L)

/-- The superclass of a known class is known. -/
theorem Ordered.superclass? (h : L.Ordered) {c s : Class} (hc : L.Knows (.classValue c))
    (hs : c.superclass? = some s) : L.Knows (.classValue s) :=
  ((h.from hc).2.2 s hs).mono (List.take_prefix _ L)

theorem Ordered.ownMethod (h : L.Ordered) {c : Class} (hc : L.Knows (.classValue c)) {name : String} {f : Closure}
    (hf : c.own.methods.get? name = some f) : L.Knows (.function f) :=
  ((h.from hc).2.1 name f hf).mono (List.take_prefix _ L)

/-- The method that a class has for a name, of its own or not. -/
theorem Ordered.findMethod? (h : L.Ordered) {c : Class} (hc : L.Knows (.classValue c)) {name : String} {f : Closure}
    (hf : c.findMethod? name = some f) : L.Knows (.function f) := by
  obtain ⟨own, inherited⟩ := c
  -- along the classes that are inherited from, each of which is the superclass of the one before
  induction inherited generalizing own with
  | nil => exact h.ownMethod hc (by rwa [Class.findMethod?, List.findSome?_singleton] at hf)
  | cons layer layers ih =>
    rw [Class.findMethod?, List.findSome?_cons] at hf
    cases hown : own.methods.get? name with
    | none =>
      rw [hown] at hf
      exact ih layer (h.superclass? hc rfl) hf
    | some g =>
      rw [hown] at hf
      cases hf
      exact h.ownMethod hc hown

/-- Every environment ends with the globals. -/
theorem Ordered.globals_mem (h : L.Ordered) (hsees : L.Sees env) : 0 ∈ env := by
  induction env with
  | nil => exact hsees.elim
  | cons a around ih =>
    rcases h.from hsees with ⟨rfl, hnone⟩ | haround
    · -- a frame inside of nothing is the first thing that was allocated
      have hlt : a < L.length := (List.getElem?_eq_some_iff.mp hsees).1
      rcases List.take_eq_nil_iff.mp hnone with rfl | rfl
      · exact List.mem_cons_self
      · cases hlt
    · exact List.mem_cons_of_mem a (ih (haround.mono (List.take_prefix a L)))

/-! ## Links

The links that searches follow: to the frame around, to the superclass, from a function to its frame. -/

/-- The frame around a frame. -/
def enclosing (L : Lineage) (a : Address) : Option Address :=
  match L[a]? with
  | some (.frame around) => around.head?
  | _ => none

/-- The superclass of a class. -/
def superclass (L : Lineage) (a : Address) : Option Address :=
  match L[a]? with
  | some (.class c) => c.superclass?.map (·.own.address)
  | _ => none

/-- The frame in which a function was declared. -/
def closure (L : Lineage) (a : Address) : Option Address :=
  match L[a]? with
  | some (.function f) => f.environment.head?
  | _ => none

/-- The methods that a class declares itself. -/
def methods (L : Lineage) (a : Address) : Bindings Closure :=
  match L[a]? with
  | some (.class c) => c.own.methods
  | _ => []

/-- What is in the beginning of a list is at an early place. -/
theorem lt_of_take {n : Nat} (ha : (L.take n)[a]? = some b) : a < n :=
  Nat.lt_of_lt_of_le (List.getElem?_eq_some_iff.mp ha).1 (List.length_take_le n L)

/-- The first frame of an environment is older than what sees the environment. -/
theorem Sees.lt {n : Nat} (h : Sees (L.take n) env) (ha : env.head? = some a) : a < n := by
  cases env with
  | nil => cases ha
  | cons a' around =>
    cases ha
    exact lt_of_take h

/-- The frame around is older. -/
theorem Ordered.enclosing_lt (h : L.Ordered) {a' : Address} (ha : L.enclosing a = some a') : a' < a := by
  rw [enclosing] at ha
  split at ha
  case h_1 around hbirth =>
    rcases h.from hbirth with ⟨rfl, -⟩ | haround
    · cases ha
    · exact haround.lt ha
  case h_2 => cases ha

/-- The superclass is older. -/
theorem Ordered.superclass_lt (h : L.Ordered) {a' : Address} (ha : L.superclass a = some a') : a' < a := by
  rw [superclass] at ha
  split at ha
  case h_1 c hbirth =>
    obtain ⟨s, hs, rfl⟩ := Option.map_eq_some_iff.mp ha
    exact lt_of_take ((h.from hbirth).2.2 s hs)
  case h_2 => cases ha

/-- The frame of a function is older than the function. -/
theorem Ordered.closure_lt (h : L.Ordered) {a' : Address} (ha : L.closure a = some a') : a' < a := by
  rw [closure] at ha
  split at ha
  case h_1 f hbirth => exact (h.from hbirth).2.lt ha
  case h_2 => cases ha

end Lineage

/-! ## Searches

A walk along links that lead to smaller addresses ends. What the evaluator does with lists is such a walk. -/

/-- A walk along links until something is found, or until there is no further link. -/
inductive Searches {α : Type} (next : Address → Option Address) (look : Address → Option α) :
    Address → Option α → Prop
  | found {a : Address} {x : α} (hlook : look a = some x) : Searches next look a (some x)
  | lost {a : Address} (hlook : look a = none) (hnext : next a = none) : Searches next look a none
  | onward {a a' : Address} {result : Option α} (hlook : look a = none) (hnext : next a = some a')
      (hrest : Searches next look a' result) : Searches next look a result

section

variable {α : Type} {next : Address → Option Address} {look : Address → Option α} {a : Address}

/-- Along the same links one search has one result, whether it is found in a map of ages or on the machine. -/
theorem Searches.unique {result result' : Option α} (h : Searches next look a result)
    (h' : Searches next look a result') : result = result' := by
  induction h with
  | found hlook =>
    cases h' with
    | found hlook' => rw [← hlook, ← hlook']
    | lost hlook' | onward hlook' => cases hlook.symm.trans hlook'
  | lost hlook hnext =>
    cases h' with
    | found hlook' => cases hlook.symm.trans hlook'
    | lost => rfl
    | onward _ hnext' => cases hnext.symm.trans hnext'
  | onward hlook hnext _ ih =>
    cases h' with
    | found hlook' => cases hlook.symm.trans hlook'
    | lost _ hnext' => cases hnext.symm.trans hnext'
    | onward _ hnext' hrest' =>
      obtain rfl := Option.some.inj (hnext.symm.trans hnext')
      exact ih hrest'

/-- If all links lead to smaller addresses, every search comes to an end, and to no more than one. -/
theorem searches_end (hlt : ∀ a a', next a = some a' → a' < a) (look : Address → Option α) (a : Address) :
    ∃! result, Searches next look a result := by
  induction a using Nat.strongRecOn with
  | ind a ih =>
    -- a search has one result at most, so that it has one is what is left to show
    suffices hends : ∃ result, Searches next look a result by
      obtain ⟨result, hresult⟩ := hends
      exact ⟨result, hresult, fun _ hother => hother.unique hresult⟩
    cases hlook : look a with
    | some x => exact ⟨some x, .found hlook⟩
    | none =>
      cases hnext : next a with
      | none => exact ⟨none, .lost hlook hnext⟩
      | some a' =>
        obtain ⟨result, hresult, -⟩ := ih a' (hlt a a' hnext)
        exact ⟨result, .onward hlook hnext hresult⟩

end

namespace Lineage

variable {L : Lineage}

/-- A look through an environment follows the frames from each to the one around it. -/
theorem searches_environment {α : Type} (h : L.Ordered) (look : Address → Option α) {a : Address} {around : Environment}
    (ha : L[a]? = some (.frame around)) : Searches L.enclosing look a ((a :: around).findSome? look) := by
  have hnext : L.enclosing a = around.head? := by rw [enclosing, ha]
  rw [List.findSome?_cons]
  induction around generalizing a with
  | nil =>
    cases hlook : look a with
    | some x => exact .found hlook
    | none => exact .lost hlook hnext
  | cons a' around ih =>
    cases hlook : look a with
    | some x => exact .found hlook
    | none =>
      -- the frame was made in an environment that was there before it
      have haround : L.Sees (a' :: around) := by
        rcases h.from ha with ⟨hnil, -⟩ | haround
        · cases hnil
        · exact haround.mono (List.take_prefix a L)
      have hnext' : L.enclosing a' = around.head? := by rw [enclosing, show L[a']? = _ from haround]
      rw [List.findSome?_cons]
      exact .onward hlook hnext (ih haround hnext')

/-- A look for a method follows the classes from each to the one it extends. -/
theorem searches_methods (h : L.Ordered) (name : String) {c : Class} (hc : L.Knows (.classValue c)) :
    Searches L.superclass (fun a => (L.methods a).get? name) c.own.address (c.findMethod? name) := by
  obtain ⟨own, inherited⟩ := c
  have hlook : ∀ {c : Class}, L.Knows (.classValue c) → (L.methods c.own.address).get? name = c.own.methods.get? name := by
    intro c hc
    rw [methods, show L[c.own.address]? = _ from hc]
  have hnext : ∀ {c : Class}, L.Knows (.classValue c) →
      L.superclass c.own.address = c.superclass?.map (·.own.address) := by
    intro c hc
    rw [superclass, show L[c.own.address]? = _ from hc]
  induction inherited generalizing own with
  | nil =>
    rw [Class.findMethod?, List.findSome?_cons]
    cases hown : own.methods.get? name with
    | some f => exact .found ((hlook hc).trans hown)
    | none => exact .lost ((hlook hc).trans hown) (hnext hc)
  | cons layer layers ih =>
    rw [Class.findMethod?, List.findSome?_cons]
    cases hown : own.methods.get? name with
    | some f => exact .found ((hlook hc).trans hown)
    | none => exact .onward ((hlook hc).trans hown) (hnext hc) (ih layer (h.superclass? hc rfl))

end Lineage

end LoxLang
