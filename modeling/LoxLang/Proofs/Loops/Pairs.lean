import LoxLang.Proofs.Loops.Direct
import LoxLang.Proofs.Run.Frames
import LoxLang.Run.Object

/-!
# Two heaps, the second without the frames of inner blocks

A `Pairing` says which addresses of two heaps correspond. The first heap belongs to a plain run and may have more
frames: those that the inner blocks of loops open. Nothing is ever bound in them, so environments correspond once such
frames are passed over.

* **`Environment.Abreast`** — two environments, frame by frame but for those of inner blocks.
* **`Environment.Abreast.hops`** — a name is found in frames that correspond.
* **`Value.Abreast`**, **`Heap.Abreast`** — values and heaps that hold the same.
-/

namespace LoxLang

/-! ## Addresses

Two runs allocate in the same order but for the frames of inner blocks, so that addresses shift. They are not equal then
but they correspond one to one, which is enough for values to be equal on one side exactly if they are on the other. -/

/-- A one-to-one correspondence between addresses of two heaps. -/
structure Pairing where
  twin : Address → Address → Prop
  /-- The frames of inner blocks, which only the first heap has. -/
  spare : Address → Prop
  right : ∀ {a b b'}, twin a b → twin a b' → b = b'
  left : ∀ {a a' b}, twin a b → twin a' b → a = a'
  apart : ∀ {a b}, spare a → ¬ twin a b

/-- More addresses correspond, or more frames are spare. -/
structure Pairing.Grows (W W' : Pairing) : Prop where
  twin : ∀ {a b}, W.twin a b → W'.twin a b
  spare : ∀ {a}, W.spare a → W'.spare a

namespace Pairing

variable {W W' W'' : Pairing} {a b : Address}

theorem Grows.refl (W : Pairing) : W.Grows W :=
  ⟨id, id⟩

theorem Grows.trans (h : W.Grows W') (h' : W'.Grows W'') : W.Grows W'' :=
  ⟨h'.twin ∘ h.twin, h'.spare ∘ h.spare⟩

/-- Two new addresses correspond as well. -/
def add (W : Pairing) {a b : Address} (ha : ∀ b', ¬ W.twin a b') (hb : ∀ a', ¬ W.twin a' b)
    (hspare : ¬ W.spare a) : Pairing where
  twin a' b' := (a' = a ∧ b' = b) ∨ W.twin a' b'
  spare := W.spare
  right := by
    rintro a' b₁ b₂ (⟨rfl, rfl⟩ | h₁) (⟨h, rfl⟩ | h₂)
    · rfl
    · exact absurd h₂ (ha _)
    · exact absurd (h ▸ h₁) (ha _)
    · exact W.right h₁ h₂
  left := by
    rintro a₁ a₂ b' (⟨rfl, rfl⟩ | h₁) (⟨rfl, h⟩ | h₂)
    · rfl
    · exact absurd h₂ (hb _)
    · exact absurd (h ▸ h₁) (hb _)
    · exact W.left h₁ h₂
  apart := by
    rintro a' b' h (⟨rfl, -⟩ | h')
    · exact hspare h
    · exact W.apart h h'

/-- A new frame is spare as well. -/
def addSpare (W : Pairing) {a : Address} (ha : ∀ b, ¬ W.twin a b) : Pairing where
  twin := W.twin
  spare a' := a' = a ∨ W.spare a'
  right := W.right
  left := W.left
  apart := by
    rintro a' b (rfl | h) h'
    · exact ha b h'
    · exact W.apart h h'

theorem grows_add (ha : ∀ b', ¬ W.twin a b') (hb : ∀ a', ¬ W.twin a' b) (hspare : ¬ W.spare a) :
    W.Grows (W.add ha hb hspare) :=
  ⟨Or.inr, id⟩

/-- Old pairs stay when a frame is spare. -/
theorem grows_addSpare (ha : ∀ b, ¬ W.twin a b) : W.Grows (W.addSpare ha) :=
  ⟨id, Or.inr⟩

end Pairing

/-! ## Environments

A spare frame is passed over with its scope, which declares nothing. Every distance that leads past it is one less on
the other side. -/

/-- Two environments with the scopes they stand for. A spare frame stands for a scope that declares nothing, and the
second environment has none for it. `kept` says whether the innermost frames correspond. -/
inductive Environment.Abreast (W : Pairing) : Bool → Scopes → Scopes → Environment → Environment → Prop where
  | globals (h : W.twin 0 0) : Abreast W true [] [] .globals .globals
  | keep {kept : Bool} {scope : List String} {S S' : Scopes} {a b : Address} {env env' : Environment}
    (h : W.twin a b) (outer : Abreast W kept S S' env env') :
    Abreast W true (scope :: S) (scope :: S') (a :: env) (b :: env')
  | skip {kept : Bool} {S S' : Scopes} {a : Address} {env env' : Environment} (h : W.spare a)
    (outer : Abreast W kept S S' env env') : Abreast W false ([] :: S) S' (a :: env) env'

namespace Environment.Abreast

variable {W W' : Pairing} {kept : Bool} {S S' : Scopes} {env env' : Environment} {name : String} {d : Nat}

/-- Environments stay abreast when more addresses correspond. -/
theorem mono (h : Abreast W kept S S' env env') (hgrows : W.Grows W') : Abreast W' kept S S' env env' := by
  induction h with
  | globals h => exact .globals (hgrows.twin h)
  | keep h _ ih => exact .keep (hgrows.twin h) ih
  | skip h _ ih => exact .skip (hgrows.spare h) ih

/-- A declaration in the innermost scope, if the innermost frames correspond. -/
theorem declare (h : Abreast W kept S S' env env') (names : List String) (hkept : names ≠ [] → kept = true) :
    Abreast W kept (S.declare names) (S'.declare names) env env' := by
  by_cases hnames : names = []
  · rw [hnames, Scopes.declare_nil_right, Scopes.declare_nil_right]
    exact h
  · cases h with
    | globals h => exact .globals h
    | keep h outer => exact .keep h outer
    | skip => cases hkept hnames

/-- Where a scope is kept, one side is outside of all scopes exactly if the other is. -/
theorem isEmpty_eq (h : Abreast W true S S' env env') : S'.isEmpty = S.isEmpty := by
  cases h <;> rfl

/-- A name that a scope declares is found in frames that correspond. -/
theorem hops (h : Abreast W kept S S' env env') (hd : S.hops name = some d) :
    ∃ d' a b, S'.hops name = some d' ∧ env[d]? = some a ∧ env'[d']? = some b ∧ W.twin a b := by
  induction h generalizing d with
  | globals => cases hd
  | @keep _ scope S S' a b env env' hab _ ih =>
    rw [Scopes.hops_cons] at hd ⊢
    by_cases hmem : name ∈ scope
    · rw [if_pos hmem] at hd ⊢
      cases hd
      exact ⟨0, a, b, rfl, rfl, rfl, hab⟩
    · rw [if_neg hmem] at hd ⊢
      obtain ⟨n, hn, rfl⟩ := Option.map_eq_some_iff.mp hd
      obtain ⟨n', a', b', hn', ha', hb', htwin⟩ := ih hn
      exact ⟨n' + 1, a', b', by rw [hn']; rfl, ha', hb', htwin⟩
  | @skip _ S S' a env env' _ _ ih =>
    rw [Scopes.hops_cons, if_neg List.not_mem_nil] at hd
    obtain ⟨n, hn, rfl⟩ := Option.map_eq_some_iff.mp hd
    exact ih hn

/-- A name that no scope declares is a global in both. -/
theorem hops_none (h : Abreast W kept S S' env env') (hd : S.hops name = none) : S'.hops name = none := by
  induction h with
  | globals => rfl
  | @keep _ scope S S' a b env env' hab _ ih =>
    rw [Scopes.hops_cons] at hd ⊢
    by_cases hmem : name ∈ scope
    · rw [if_pos hmem] at hd
      cases hd
    · rw [if_neg hmem] at hd ⊢
      rw [ih (Option.map_eq_none_iff.mp hd)]
      rfl
  | @skip _ S S' a env env' _ _ ih =>
    rw [Scopes.hops_cons, if_neg List.not_mem_nil] at hd
    exact ih (Option.map_eq_none_iff.mp hd)

/-- The innermost scope is not passed over if it declares a name. -/
theorem hops_zero (h : Abreast W kept S S' env env') (hd : S.hops name = some 0) : S'.hops name = some 0 := by
  cases h with
  | globals => cases hd
  | @keep _ scope S S' a b env env' =>
    rw [Scopes.hops_cons] at hd ⊢
    by_cases hmem : name ∈ scope
    · rw [if_pos hmem]
    · rw [if_neg hmem] at hd
      obtain ⟨n, -, hn⟩ := Option.map_eq_some_iff.mp hd
      cases hn
  | @skip _ S S' =>
    rw [Scopes.hops_cons, if_neg List.not_mem_nil] at hd
    obtain ⟨n, -, hn⟩ := Option.map_eq_some_iff.mp hd
    cases hn

/-- Scopes that follow each other and both declare a name still do. -/
theorem hops_succ {name' : String} (h : Abreast W kept S S' env env') (hd : S.hops name = some d)
    (hd' : S.hops name' = some (d + 1)) : ∃ n, S'.hops name = some n ∧ S'.hops name' = some (n + 1) := by
  induction h generalizing d with
  | globals => cases hd
  | @keep _ scope S S' a b env env' hab outer ih =>
    rw [Scopes.hops_cons] at hd hd' ⊢
    -- the outer name is not in the first scope, or it would be at no distance
    have hmem' : name' ∉ scope := by
      intro hmem'
      rw [if_pos hmem'] at hd'
      cases hd'
    rw [if_neg hmem'] at hd'
    obtain ⟨n, hn, hnd⟩ := Option.map_eq_some_iff.mp hd'
    obtain rfl : n = d := by omega
    rw [Scopes.hops_cons, if_neg hmem']
    by_cases hmem : name ∈ scope
    · rw [if_pos hmem] at hd ⊢
      cases hd
      exact ⟨0, rfl, by rw [outer.hops_zero hn]; rfl⟩
    · rw [if_neg hmem] at hd ⊢
      obtain ⟨k, hk, rfl⟩ := Option.map_eq_some_iff.mp hd
      obtain ⟨k', hk', hn'⟩ := ih hk hn
      exact ⟨k' + 1, by rw [hk']; rfl, by rw [hn']; rfl⟩
  | @skip _ S S' a env env' _ _ ih =>
    rw [Scopes.hops_cons, if_neg List.not_mem_nil] at hd hd'
    obtain ⟨n, hn, rfl⟩ := Option.map_eq_some_iff.mp hd
    obtain ⟨n', hn', hnn⟩ := Option.map_eq_some_iff.mp hd'
    obtain rfl : n' = n + 1 := by omega
    exact ih hn hn'

end Environment.Abreast

/-! ## Values

By the form of the value. A function corresponds to one with the same declaration, placed in the scopes of the other
side. -/

section Values

variable (chosen : SourceStmt → Bool) (W : Pairing)

/-- A function of a plain run and one of a direct run. The scopes `S` and `S'` are those of the environments, `T` and
`T'` those that the declarations fit. -/
structure Closure.Abreast (S S' T T' : Scopes) (f g : Closure) : Prop where
  address : W.twin f.address g.address
  declaration : g.declaration = f.declaration.placed chosen T'
  fits : f.declaration.Scoped false T
  environment : ∃ kept, Environment.Abreast W kept S S' f.environment g.environment
  isInitializer : g.isInitializer = f.isInitializer

/-- Methods that are not bound yet. Their instance is missing in the environments. -/
def Closure.AbreastMethods (f g : Closure) : Prop :=
  ∃ S S', f.Abreast chosen W S S' (["this"] :: S) (["this"] :: S') g

/-- Functions that can be called. An initializer finds its instance in the innermost scope. -/
def Closure.AbreastFunctions (f g : Closure) : Prop :=
  ∃ S S', f.Abreast chosen W S S' S S' g ∧ (f.isInitializer = true → S.hops "this" = some 0)

/-- What two classes declare themselves. -/
structure ClassLayer.Abreast (c d : ClassLayer) : Prop where
  address : W.twin c.address d.address
  name : d.name = c.name
  methods : ∀ name, Option.Rel (Closure.AbreastMethods chosen W) (c.methods.get? name) (d.methods.get? name)

/-- Classes that correspond layer by layer. -/
structure Class.Abreast (c d : Class) : Prop where
  own : c.own.Abreast chosen W d.own
  inherited : List.Forall₂ (ClassLayer.Abreast chosen W) c.inherited d.inherited

/-- Values of two runs that correspond. -/
inductive Value.Abreast : Value → Value → Prop where
  | nil : Abreast .nil .nil
  | bool (b : Bool) : Abreast (.bool b) (.bool b)
  | number (x : Float) : Abreast (.number x) (.number x)
  | string (s : String) : Abreast (.string s) (.string s)
  | clock : Abreast .clock .clock
  | function {f g : Closure} (h : f.AbreastFunctions chosen W g) : Abreast (.function f) (.function g)
  | classValue {c d : Class} (h : c.Abreast chosen W d) : Abreast (.classValue c) (.classValue d)
  | object {i j : Instance} (haddress : W.twin i.address j.address) (h : i.origin.Abreast chosen W j.origin) :
    Abreast (.object i) (.object j)

/-- Names that are bound to values that correspond. -/
def Bindings.Abreast (b b' : Bindings Value) : Prop :=
  ∀ name, Option.Rel (Value.Abreast chosen W) (b.get? name) (b'.get? name)

/-- Cells that hold the same. -/
inductive Cell.Abreast : Cell → Cell → Prop where
  | frame {b b' : Bindings Value} (h : b.Abreast chosen W b') : Abreast (.frame b) (.frame b')
  | fields {b b' : Bindings Value} (h : b.Abreast chosen W b') : Abreast (.fields b) (.fields b')
  | identity : Abreast .identity .identity

/-- Heaps that hold the same at addresses that correspond. -/
structure Heap.Abreast (h h' : Heap) : Prop where
  globals : W.twin 0 0
  twins : ∀ {a b}, W.twin a b → ∃ k k', h.cells[a]? = some k ∧ h'.cells[b]? = some k' ∧ k.Abreast chosen W k'
  spares : ∀ {a}, W.spare a → h.cells[a]? = some (.frame [])

end Values

section

variable {chosen : SourceStmt → Bool} {W W' : Pairing}

/-! ### More pairs

All of this stays true when more addresses correspond, for it only ever says that some do. -/

theorem Closure.Abreast.mono {S S' T T' : Scopes} {f g : Closure} (h : f.Abreast chosen W S S' T T' g)
    (hgrows : W.Grows W') : f.Abreast chosen W' S S' T T' g := by
  obtain ⟨kept, henv⟩ := h.environment
  exact ⟨hgrows.twin h.address, h.declaration, h.fits, ⟨kept, henv.mono hgrows⟩, h.isInitializer⟩

theorem Closure.AbreastMethods.mono {f g : Closure} (h : f.AbreastMethods chosen W g) (hgrows : W.Grows W') :
    f.AbreastMethods chosen W' g := by
  obtain ⟨S, S', habreast⟩ := h
  exact ⟨S, S', habreast.mono hgrows⟩

theorem ClassLayer.Abreast.mono {c d : ClassLayer} (h : c.Abreast chosen W d) (hgrows : W.Grows W') :
    c.Abreast chosen W' d :=
  ⟨hgrows.twin h.address, h.name, fun name => optionRel_imp (h.methods name) fun _ _ hf => hf.mono hgrows⟩

theorem Class.Abreast.mono {c d : Class} (h : c.Abreast chosen W d) (hgrows : W.Grows W') :
    c.Abreast chosen W' d :=
  ⟨h.own.mono hgrows, h.inherited.imp fun _ _ hl => hl.mono hgrows⟩

theorem Value.Abreast.mono {v w : Value} (h : v.Abreast chosen W w) (hgrows : W.Grows W') :
    v.Abreast chosen W' w := by
  cases h with
  | nil => exact .nil
  | bool b => exact .bool b
  | number x => exact .number x
  | string s => exact .string s
  | clock => exact .clock
  | function h =>
    obtain ⟨S, S', habreast, hthis⟩ := h
    exact .function ⟨S, S', habreast.mono hgrows, hthis⟩
  | classValue h => exact .classValue (h.mono hgrows)
  | object haddress h => exact .object (hgrows.twin haddress) (h.mono hgrows)

theorem Bindings.Abreast.mono {b b' : Bindings Value} (h : b.Abreast chosen W b') (hgrows : W.Grows W') :
    b.Abreast chosen W' b' :=
  fun name => optionRel_imp (h name) fun _ _ hv => hv.mono hgrows

theorem Cell.Abreast.mono {k k' : Cell} (h : k.Abreast chosen W k') (hgrows : W.Grows W') :
    k.Abreast chosen W' k' := by
  cases h with
  | frame h => exact .frame (h.mono hgrows)
  | fields h => exact .fields (h.mono hgrows)
  | identity => exact .identity

/-! ### What is seen of a value

A program sees of a value whether it is true, how it prints, whether it equals another one, and how it may be called.
None of this shows addresses or notes. -/

/-- Only `nil` and `false` are not true. -/
theorem Value.Abreast.isTruthy_eq {v w : Value} (h : v.Abreast chosen W w) : w.isTruthy = v.isTruthy := by
  cases h <;> rfl

/-- Functions and classes are printed by name. -/
theorem Value.Abreast.text_eq {v w : Value} (h : v.Abreast chosen W w) : w.text = v.text := by
  cases h with
  | function h =>
    obtain ⟨S, S', habreast, -⟩ := h
    rw [Value.text, Value.text, habreast.declaration, FunDecl.placed_name]
  | classValue h => exact h.own.name
  | object haddress h => rw [Value.text, Value.text, h.own.name]
  | _ => rfl

/-- Addresses correspond one to one, so equality is the same in both runs. -/
theorem Value.Abreast.equals_eq {v v' w w' : Value} (h : v.Abreast chosen W w) (h' : v'.Abreast chosen W w') :
    w.equals w' = v.equals v' := by
  have haddress : ∀ {a b c d : Address}, W.twin a c → W.twin b d → (c == d) = (a == b) := by
    intro a b c d hac hbd
    rw [Bool.eq_iff_iff, beq_iff_eq, beq_iff_eq]
    constructor
    · rintro rfl
      exact W.left hac hbd
    · rintro rfl
      exact W.right hac hbd
  -- values of different forms are different on both sides; objects, functions and classes are compared by address
  cases h with
  | function h =>
    cases h' with
    | function h' =>
      obtain ⟨_, _, habreast, -⟩ := h
      obtain ⟨_, _, habreast', -⟩ := h'
      exact haddress habreast.address habreast'.address
    | _ => rfl
  | classValue h =>
    cases h' with
    | classValue h' => exact haddress h.own.address h'.own.address
    | _ => rfl
  | object hi h =>
    cases h' with
    | object hj h' => exact haddress hi hj
    | _ => rfl
  | _ => cases h' <;> rfl

/-- The same layer has the method on both sides. -/
theorem Class.Abreast.findMethod? {c d : Class} (h : c.Abreast chosen W d) (name : String) :
    Option.Rel (Closure.AbreastMethods chosen W) (c.findMethod? name) (d.findMethod? name) := by
  have hlayers : List.Forall₂ (ClassLayer.Abreast chosen W) (c.own :: c.inherited) (d.own :: d.inherited) :=
    .cons h.own h.inherited
  exact optionRel_findSome? hlayers fun _ _ hl => hl.methods name

/-- The parameters are those of the declaration. -/
theorem Closure.Abreast.arity_eq {S S' T T' : Scopes} {f g : Closure} (h : f.Abreast chosen W S S' T T' g) :
    g.arity = f.arity := by
  rw [Closure.arity, Closure.arity, h.declaration, FunDecl.placed_params]

/-- Those of the initializer, if there is one. -/
theorem Class.Abreast.arity_eq {c d : Class} (h : c.Abreast chosen W d) : d.arity = c.arity := by
  unfold Class.arity Class.initializer?
  obtain ⟨hc, hd⟩ | ⟨f, g, hc, hd, _, _, habreast⟩ := optionRel_cases (h.findMethod? "init")
  · rw [hc, hd]
  · rw [hc, hd]
    exact habreast.arity_eq

/-- What can be called on one side can be on the other, with as many arguments. -/
theorem Value.Abreast.arity?_eq {v w : Value} (h : v.Abreast chosen W w) : w.arity? = v.arity? := by
  cases h with
  | function h =>
    obtain ⟨_, _, habreast, -⟩ := h
    exact congrArg some habreast.arity_eq
  | classValue h => exact congrArg some h.arity_eq
  | _ => rfl

end

/-! ## Bindings

Name by name, which is all that can be seen of bindings. -/

namespace Bindings.Abreast

variable {chosen : SourceStmt → Bool} {W : Pairing} {b b' : Bindings Value} {v w : Value}

theorem nil : Bindings.Abreast chosen W [] [] :=
  fun _ => .none

/-- One more name is bound to values that correspond. -/
theorem put (h : b.Abreast chosen W b') (name : String) (hvw : v.Abreast chosen W w) :
    (b.put name v).Abreast chosen W (b'.put name w) := by
  intro other
  rw [get?_put, get?_put]
  by_cases hname : name = other
  · rw [if_pos hname, if_pos hname]
    exact .some hvw
  · rw [if_neg hname, if_neg hname]
    exact h other

theorem singleton (name : String) (hvw : v.Abreast chosen W w) :
    Bindings.Abreast chosen W [(name, v)] [(name, w)] :=
  nil.put name hvw

/-- Parameters are bound to arguments that correspond. -/
theorem ofLists (names : List String) {vs ws : List Value} (hvw : List.Forall₂ (Value.Abreast chosen W) vs ws) :
    (Bindings.ofLists names vs).Abreast chosen W (Bindings.ofLists names ws) := by
  -- the bindings grow while the lists get shorter
  suffices h : ∀ b b' : Bindings Value, b.Abreast chosen W b' →
      ((names.zip vs).foldl (fun b (n, a) => b.put n a) b).Abreast chosen W
        ((names.zip ws).foldl (fun b (n, a) => b.put n a) b') from h [] [] nil
  induction hvw generalizing names with
  | nil =>
    intro b b' h
    rw [List.zip_nil_right]
    exact h
  | cons hv _ ih =>
    intro b b' h
    cases names with
    | nil => exact h
    | cons name names => exact ih names _ _ (h.put name hv)

end Bindings.Abreast

/-! ## Heaps

Cells at addresses that correspond hold the same, and a spare cell holds nothing. The primitive steps of a run keep
this. -/

namespace Heap.Abreast

variable {chosen : SourceStmt → Bool} {W : Pairing} {h h' : Heap} {a b : Address} {v w : Value}

theorem vars (habreast : h.Abreast chosen W h') (hab : W.twin a b) :
    (h.vars a).Abreast chosen W (h'.vars b) := by
  obtain ⟨k, k', hk, hk', hkind⟩ := habreast.twins hab
  unfold Heap.vars
  rw [hk, hk']
  cases hkind with
  | frame hvars => exact hvars
  | fields | identity => exact .nil

theorem fields (habreast : h.Abreast chosen W h') (hab : W.twin a b) :
    (h.fields a).Abreast chosen W (h'.fields b) := by
  obtain ⟨k, k', hk, hk', hkind⟩ := habreast.twins hab
  unfold Heap.fields
  rw [hk, hk']
  cases hkind with
  | fields hfields => exact hfields
  | frame | identity => exact .nil

/-- Only addresses of cells correspond. -/
theorem lt_size (habreast : h.Abreast chosen W h') (hab : W.twin a b) :
    a < h.cells.size ∧ b < h'.cells.size := by
  obtain ⟨k, k', hk, hk', -⟩ := habreast.twins hab
  exact ⟨(Array.getElem?_eq_some_iff.mp hk).1, (Array.getElem?_eq_some_iff.mp hk').1⟩

/-- A spare frame is a cell. -/
theorem spare_lt_size (habreast : h.Abreast chosen W h') (ha : W.spare a) : a < h.cells.size :=
  (Array.getElem?_eq_some_iff.mp (habreast.spares ha)).1

/-- An address that is new corresponds to none. -/
theorem not_twin_size (habreast : h.Abreast chosen W h') (b : Address) : ¬ W.twin h.cells.size b :=
  fun hab => Nat.lt_irrefl _ (habreast.lt_size hab).1

/-- New cells of both heaps correspond if what they hold does. Older pairs are kept. -/
theorem alloc (habreast : h.Abreast chosen W h') {k k' : Cell} (hkind : k.Abreast chosen W k') :
    ∃ W', W.Grows W' ∧ W'.twin h.cells.size h'.cells.size ∧
      (h.alloc k).2.Abreast chosen W' (h'.alloc k').2 := by
  have hb : ∀ a, ¬ W.twin a h'.cells.size := fun a hab => Nat.lt_irrefl _ (habreast.lt_size hab).2
  have hspare : ¬ W.spare h.cells.size := fun ha => Nat.lt_irrefl _ (habreast.spare_lt_size ha)
  have hgrows := Pairing.grows_add habreast.not_twin_size hb hspare
  refine ⟨W.add habreast.not_twin_size hb hspare, hgrows, Or.inl ⟨rfl, rfl⟩, hgrows.twin habreast.globals, ?_, ?_⟩
  · -- the new pair, and the pairs of before, whose cells are where they were
    rintro a b (⟨rfl, rfl⟩ | hab)
    · refine ⟨k, k', ?_, ?_, hkind.mono hgrows⟩
      · rw [getElem?_alloc, if_pos rfl]
      · rw [getElem?_alloc, if_pos rfl]
    · obtain ⟨c, c', hc, hc', hcells⟩ := habreast.twins hab
      obtain ⟨hlt, hlt'⟩ := habreast.lt_size hab
      refine ⟨c, c', ?_, ?_, hcells.mono hgrows⟩
      · rw [getElem?_alloc, if_neg (Nat.ne_of_lt hlt), hc]
      · rw [getElem?_alloc, if_neg (Nat.ne_of_lt hlt'), hc']
  · intro a ha
    rw [getElem?_alloc, if_neg (Nat.ne_of_lt (habreast.spare_lt_size ha))]
    exact habreast.spares ha

/-- A new frame of the plain run alone. -/
theorem allocSpare (habreast : h.Abreast chosen W h') :
    ∃ W', W.Grows W' ∧ W'.spare h.cells.size ∧ (h.alloc (.frame [])).2.Abreast chosen W' h' := by
  have hgrows := Pairing.grows_addSpare habreast.not_twin_size
  refine ⟨W.addSpare habreast.not_twin_size, hgrows, Or.inl rfl, habreast.globals, fun {a b} hab => ?_, ?_⟩
  · obtain ⟨c, c', hc, hc', hcells⟩ := habreast.twins hab
    refine ⟨c, c', ?_, hc', hcells.mono hgrows⟩
    rw [getElem?_alloc, if_neg (Nat.ne_of_lt (habreast.lt_size hab).1), hc]
  · rintro a (rfl | ha)
    · rw [getElem?_alloc, if_pos rfl]
    · rw [getElem?_alloc, if_neg (Nat.ne_of_lt (habreast.spare_lt_size ha))]
      exact habreast.spares ha

/-- Cells that correspond may be changed together, since addresses correspond one to one. -/
theorem modify (habreast : h.Abreast chosen W h') (hab : W.twin a b) {f g : Cell → Cell}
    (hfg : ∀ k k', k.Abreast chosen W k' → (f k).Abreast chosen W (g k')) :
    Heap.Abreast chosen W ⟨h.cells.modify a f⟩ ⟨h'.cells.modify b g⟩ := by
  refine ⟨habreast.globals, fun {c d} hcd => ?_, fun {c} hc => ?_⟩
  · obtain ⟨k, k', hk, hk', hkind⟩ := habreast.twins hcd
    dsimp only
    rw [Array.getElem?_modify, Array.getElem?_modify]
    -- one address of a pair has changed exactly if the other has
    by_cases hc : a = c
    · subst hc
      rw [if_pos rfl, if_pos (W.right hab hcd), hk, hk']
      exact ⟨f k, g k', rfl, rfl, hfg k k' hkind⟩
    · have hd : b ≠ d := by
        rintro rfl
        exact hc (W.left hab hcd)
      rw [if_neg hc, if_neg hd]
      exact ⟨k, k', hk, hk', hkind⟩
  · have hne : a ≠ c := by
      rintro rfl
      exact W.apart hc hab
    dsimp only
    rw [Array.getElem?_modify, if_neg hne]
    exact habreast.spares hc

/-- A name is bound in frames that correspond. -/
theorem define (habreast : h.Abreast chosen W h') (hab : W.twin a b) (name : String)
    (hvw : v.Abreast chosen W w) : (h.define a name v).Abreast chosen W (h'.define b name w) := by
  refine habreast.modify hab fun k k' hkind => ?_
  cases hkind with
  | frame hvars => exact .frame (hvars.put name hvw)
  | fields hfields => exact .fields hfields
  | identity => exact .identity

/-- A field is set in instances that correspond. -/
theorem setField (habreast : h.Abreast chosen W h') (hab : W.twin a b) (name : String)
    (hvw : v.Abreast chosen W w) : (h.setField a name v).Abreast chosen W (h'.setField b name w) := by
  refine habreast.modify hab fun k k' hkind => ?_
  cases hkind with
  | frame hvars => exact .frame hvars
  | fields hfields => exact .fields (hfields.put name hvw)
  | identity => exact .identity

end Heap.Abreast

/-! ## Searching environments

Spare frames bind nothing, so that a search passes them. -/

namespace Environment.Abreast

variable {chosen : SourceStmt → Bool} {W : Pairing} {kept : Bool} {S S' : Scopes} {env env' : Environment}
  {h h' : Heap}

/-- The first frames that bind a name correspond: nothing is bound in a spare frame. -/
theorem holder? (henv : Abreast W kept S S' env env') (hheap : h.Abreast chosen W h') (name : String) :
    Option.Rel W.twin (env.holder? h name) (env'.holder? h' name) := by
  have hsome : ∀ {a b}, W.twin a b → ((h'.vars b).get? name).isSome = ((h.vars a).get? name).isSome := by
    intro a b hab
    obtain ⟨ha, hb⟩ | ⟨v, w, ha, hb, -⟩ := optionRel_cases (hheap.vars hab name)
    · rw [ha, hb]
    · rw [ha, hb]
      rfl
  unfold Environment.holder?
  -- the induction is on both environments; the last case is the frame that only the plain run has
  induction henv with
  | globals h0 =>
    rw [Environment.globals, List.find?_cons, List.find?_cons, hsome h0]
    split
    · exact .some h0
    · exact .none
  | keep hab _ ih =>
    rw [List.find?_cons, List.find?_cons, hsome hab]
    split
    · exact .some hab
    · exact ih
  | @skip _ S S' a env env' ha _ ih =>
    have hvars : h.vars a = [] := by
      rw [Heap.vars, hheap.spares ha]
    rw [List.find?_cons, hvars]
    exact ih

/-- The frames of the innermost scopes, if they correspond. -/
theorem head (henv : Abreast W true S S' env env') :
    ∃ a outer b outer', env = a :: outer ∧ env' = b :: outer' ∧ W.twin a b := by
  cases henv with
  | globals h0 => exact ⟨0, [], 0, [], rfl, rfl, h0⟩
  | keep hab _ => exact ⟨_, _, _, _, rfl, rfl, hab⟩

end Environment.Abreast

end LoxLang
