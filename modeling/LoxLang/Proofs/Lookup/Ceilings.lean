import LoxLang.Proofs.Lookup.Steady
import LoxLang.Proofs.Run.Outcomes
import LoxLang.Proofs.Run.Valid

/-!
# Frames under ceilings

Each frame gets a ceiling when it is made: the names that its scope declares anywhere. It never binds more, so that a
function knows of the frames around it what they may bind whenever it is called.

* **`Environment.Under`** — the frames of an environment have no more names than a list of scopes.
* **`Environment.holder?_of_agree`** — between the names that are declared and those that frames may bind, a search
  from the inside ends as many frames out as the resolver has counted.
* **`Heap.Settled`** — all frames are under their ceilings, and all functions on the heap are steady there.
-/

namespace LoxLang

/-- The names that each frame may bind. -/
abbrev Ceilings := Address → String → Prop

/-- The ceilings with that of a new frame. -/
def Ceilings.insert (K : Ceilings) (a : Address) (names : String → Prop) : Ceilings :=
  fun b x => if b = a then names x else K b x

/-! ## Environments under ceilings

`R a x` says that the frame at `a` may have the name `x`. With what is bound for `R`, this is the state of the frames;
with the ceilings, it is what they will ever be. -/

/-- The frames of an environment have no more names than the scopes. Nothing is said of the globals. -/
def Environment.Under (R : Ceilings) : Environment → Scopes → Prop
  | env, [] => env = .globals
  | [], _ :: _ => False
  | a :: env, names :: T => (∀ x, R a x → x ∈ names) ∧ Under R env T

namespace Environment

variable {R R' : Ceilings} {env : Environment} {S D T : Scopes} {h : Heap} {a : Address} {x : String}

/-- The global frame is under no scope. -/
@[simp] theorem under_nil : env.Under R [] ↔ env = .globals := by
  cases env <;> rfl

/-- What is under a relation is under a wider one. -/
theorem Under.imp (hunder : env.Under R T) (himp : ∀ a ∈ env, ∀ x, R' a x → R a x) : env.Under R' T := by
  induction T generalizing env with
  | nil => exact under_nil.mpr (under_nil.mp hunder)
  | cons names T ih =>
    cases env with
    | nil => exact hunder.elim
    | cons a env =>
      obtain ⟨ha, hrest⟩ := hunder
      obtain ⟨himpa, himprest⟩ := List.forall_mem_cons.mp himp
      exact ⟨fun x hx => ha x (himpa x hx), ih hrest himprest⟩

/-- The innermost frame may have got more names. -/
theorem Under.declare {names : List String} (hunder : env.Under R T) (hnodup : env.Nodup)
    (himp : ∀ a ∈ env, ∀ x, R' a x → R a x ∨ env.head? = some a ∧ x ∈ names) : env.Under R' (T.declare names) := by
  -- a definition touches the innermost frame only
  cases T with
  | nil => exact under_nil.mpr (under_nil.mp hunder)
  | cons scope T =>
    cases env with
    | nil => exact hunder.elim
    | cons a env =>
      obtain ⟨ha, hrest⟩ := hunder
      obtain ⟨himpa, himprest⟩ := List.forall_mem_cons.mp himp
      constructor
      · intro x hx
        apply List.mem_append.mpr
        rcases himpa x hx with hold | ⟨-, hnew⟩
        · exact .inr (ha x hold)
        · exact .inl hnew
      · apply hrest.imp
        intro b hb x hx
        rcases himprest b hb x hx with hold | ⟨hhead, -⟩
        · exact hold
        · -- the innermost frame is none of the others
          obtain rfl := Option.some.inj hhead
          exact absurd hb (List.nodup_cons.mp hnodup).1

/-- The innermost frame is looked at first. -/
theorem holder?_cons (a : Address) (env : Environment) (h : Heap) (x : String) :
    holder? (a :: env) h x = if ((h.vars a).get? x).isSome then some a else holder? env h x := by
  unfold holder?
  rw [List.find?_cons]
  cases ((h.vars a).get? x).isSome <;> rfl

/-- The frames bind what is declared and may bind more, but no other scope comes before the nearest one for that.
Then a search finds the frame that lies so many scopes out, or searches the globals. -/
theorem holder?_of_agree (hfits : env.Fits h S) (hunder : env.Under h.Binds D) (hagree : S.Agree D x) :
    env.holder? h x = (S.hops x).elim (globals.holder? h x) (env[·]?) := by
  induction S generalizing env D with
  | nil =>
    -- outside of all scopes both search the globals
    rw [fits_nil.mp hfits]
    rfl
  | cons scope S ih =>
    cases env with
    | nil => exact hfits.elim
    | cons a env =>
      obtain ⟨-, hbinds, hrest⟩ := hfits
      rw [Scopes.Agree, Scopes.hops_cons] at hagree
      rw [holder?_cons, Scopes.hops_cons]
      by_cases hscope : x ∈ scope
      · -- what is declared is bound, so the search ends here too
        have hfound : ((h.vars a).get? x).isSome = true := hbinds x hscope
        rw [if_pos hfound, if_pos hscope]
        rfl
      · rw [if_neg hscope] at hagree ⊢
        cases D with
        | nil =>
          -- there is a frame for each scope, so the lists are equally long
          obtain ⟨rfl, rfl⟩ := List.cons.inj (under_nil.mp hunder)
          cases S with
          | nil => cases fits_nil.mp hrest
          | cons => exact hrest.elim
        | cons names D =>
          obtain ⟨hnames, hunderRest⟩ := hunder
          rw [Scopes.hops_cons] at hagree
          -- a name that the frame might bind would be nearer than the scope that declares it
          have hnot : x ∉ names := by
            intro hmem
            rw [if_pos hmem] at hagree
            cases hS : Scopes.hops S x <;> rw [hS] at hagree <;> cases hagree
          have hfound : ¬ ((h.vars a).get? x).isSome = true := fun hx => hnot (hnames x hx)
          rw [if_neg hnot] at hagree
          have hagree' : Scopes.Agree S D x := Option.map_injective (fun _ _ => Nat.succ.inj) hagree
          rw [if_neg hfound, ih hrest hunderRest hagree']
          cases Scopes.hops S x <;> rfl

end Environment

/-! ## Growth

Ceilings are given to new frames only, and no ceiling is changed. -/

/-- A later heap: names that were bound stay bound, and frames keep their ceilings. -/
structure Grown (K : Ceilings) (h : Heap) (K' : Ceilings) (h' : Heap) : Prop where
  le : h.Le h'
  same : ∀ {a}, h.IsFrame a → ∀ x, K' a x ↔ K a x

/-- An environment fits the scopes that are declared and lies under those that will ever be. -/
structure Environment.Settled (K : Ceilings) (h : Heap) (env : Environment) (S T : Scopes) : Prop where
  fits : env.Fits h S
  under : env.Under K T
  nodup : env.Nodup
  frames : ∀ a ∈ env, h.IsFrame a

section

variable {K K' K'' : Ceilings} {h h' h'' : Heap} {env : Environment} {S T : Scopes} {a : Address}

theorem Grown.refl (K : Ceilings) (h : Heap) : Grown K h K h :=
  ⟨.refl h, fun _ _ => Iff.rfl⟩

theorem Grown.trans (hg : Grown K h K' h') (hg' : Grown K' h' K'' h'') : Grown K h K'' h'' where
  le := hg.le.trans hg'.le
  same hframe x := (hg'.same (hg.le.frames hframe) x).trans (hg.same hframe x)

/-- An environment stays settled when the heap grows. -/
theorem Environment.Settled.mono (henv : env.Settled K h S T) (hg : Grown K h K' h') : env.Settled K' h' S T where
  fits := henv.fits.mono hg.le
  under := henv.under.imp fun a ha x hx => (hg.same (henv.frames a ha) x).mp hx
  nodup := henv.nodup
  frames a ha := hg.le.frames (henv.frames a ha)

theorem Environment.Settled.cons (henv : env.Settled K h S T) {scope names : List String} (hframe : h.IsFrame a)
    (hnew : a ∉ env) (hbinds : ∀ x ∈ scope, h.Binds a x) (hceiling : ∀ x, K a x → x ∈ names) :
    Environment.Settled K h (a :: env) (scope :: S) (names :: T) where
  fits := ⟨hframe, hbinds, henv.fits⟩
  under := ⟨hceiling, henv.under⟩
  nodup := List.nodup_cons.mpr ⟨hnew, henv.nodup⟩
  frames := List.forall_mem_cons.mpr ⟨hframe, henv.frames⟩

/-- There is always the global frame. -/
theorem Environment.Settled.ne_nil (henv : env.Settled K h S T) : env ≠ [] := by
  rintro rfl
  cases S with
  | nil => cases Environment.fits_nil.mp henv.fits
  | cons scope S => exact henv.fits.elim

/-- An address that is not taken yet. -/
theorem Environment.Settled.size_notMem (henv : env.Settled K h S T) : h.cells.size ∉ env :=
  fun hmem => Nat.lt_irrefl _ (henv.frames _ hmem).lt_size

/-! ## Values and heaps

By the form of the value. A function is settled if its body is steady in the scopes of its environment, with the
ceilings for what the frames may bind. -/

/-- A method, which is not bound yet, is steady inside a scope for `this`. -/
def Closure.IsSettledMethod (K : Ceilings) (h : Heap) (f : Closure) : Prop :=
  ∃ S T, f.environment.Settled K h S T ∧ f.declaration.Steady (["this"] :: S) (["this"] :: T)

/-- A function is steady in its environment. -/
def Closure.Settled (K : Ceilings) (h : Heap) (f : Closure) : Prop :=
  ∃ S T, f.environment.Settled K h S T ∧ f.declaration.Steady S T

/-- All methods of a class, inherited ones too. -/
def Class.Settled (K : Ceilings) (h : Heap) (c : Class) : Prop :=
  ∀ layer ∈ c.own :: c.inherited, ∀ name f, layer.methods.get? name = some f → f.IsSettledMethod K h

/-- A value whose functions and methods are steady. -/
def Value.Settled (K : Ceilings) (h : Heap) : Value → Prop
  | .function f => f.Settled K h
  | .classValue c => c.Settled K h
  | .object i => i.origin.Settled K h
  | .nil | .bool _ | .number _ | .string _ | .clock => True

/-- All frames are under their ceilings, and what the heap holds is steady. The globals have no ceiling. -/
structure Heap.Settled (K : Ceilings) (h : Heap) : Prop where
  outermost : h.IsFrame 0
  globals : ∀ x, K 0 x
  bounded : ∀ {a x}, h.Binds a x → K a x
  vars : ∀ {a x v}, (h.vars a).get? x = some v → v.Settled K h
  fields : ∀ {a x v}, (h.fields a).get? x = some v → v.Settled K h

/-- On a settled heap frames are under their ceilings. -/
theorem Environment.Settled.under_binds (henv : env.Settled K h S T) (hsettled : h.Settled K) : env.Under h.Binds T :=
  henv.under.imp fun _ _ _ hx => hsettled.bounded hx

theorem Closure.IsSettledMethod.mono {f : Closure} (hf : f.IsSettledMethod K h) (hg : Grown K h K' h') :
    f.IsSettledMethod K' h' := by
  obtain ⟨S, T, henv, hsteady⟩ := hf
  exact ⟨S, T, henv.mono hg, hsteady⟩

theorem Closure.Settled.mono {f : Closure} (hf : f.Settled K h) (hg : Grown K h K' h') : f.Settled K' h' := by
  obtain ⟨S, T, henv, hsteady⟩ := hf
  exact ⟨S, T, henv.mono hg, hsteady⟩

theorem Class.Settled.mono {c : Class} (hc : c.Settled K h) (hg : Grown K h K' h') : c.Settled K' h' :=
  fun layer hlayer name f hf => (hc layer hlayer name f hf).mono hg

theorem Value.Settled.mono {v : Value} (hv : v.Settled K h) (hg : Grown K h K' h') : v.Settled K' h' := by
  cases v with
  | function f => exact Closure.Settled.mono hv hg
  | classValue c => exact Class.Settled.mono hv hg
  | object i => exact Class.Settled.mono hv hg
  | nil | bool | number | string | clock => trivial

/-- Plain values have no code. -/
theorem Value.Settled.of_isPlain {v : Value} (hv : v.IsPlain) : v.Settled K h := by
  cases v with
  | nil | bool | number | string | clock => trivial
  | function | classValue | object => exact hv.elim

/-- Methods are found along the classes, and all of them are settled. -/
theorem Class.Settled.findMethod? {c : Class} (hc : c.Settled K h) {name : String} {f : Closure}
    (hf : c.findMethod? name = some f) : f.IsSettledMethod K h := by
  obtain ⟨layer, hlayer, hget⟩ := List.exists_of_findSome?_eq_some hf
  exact hc layer hlayer name f hget

/-- A class that extends another one has its methods too. -/
theorem Class.Settled.extend {own : ClassLayer} {parent : Option Class}
    (hown : ∀ name f, own.methods.get? name = some f → f.IsSettledMethod K h)
    (hparent : ∀ c ∈ parent, c.Settled K h) :
    Class.Settled K h ⟨own, parent.elim [] fun c => c.own :: c.inherited⟩ := by
  intro layer hlayer
  rcases List.mem_cons.mp hlayer with rfl | hmem
  · exact hown
  · cases parent with
    | none => cases hmem
    | some c => exact hparent c rfl layer hmem

/-! ## What keeps a heap settled

New cells with ceilings, bindings under the ceilings, and fields. -/

/-- A new cell gives an old frame no name. -/
theorem Heap.binds_of_alloc {c : Cell} {x : String} (hframe : h.IsFrame a) (hbinds : (h.alloc c).2.Binds a x) :
    h.Binds a x := by
  unfold Heap.Binds at hbinds ⊢
  rwa [Heap.vars_alloc, if_neg (Nat.ne_of_lt hframe.lt_size)] at hbinds

/-- At most one name is new. -/
theorem Heap.binds_of_define {b : Address} {name x : String} {v : Value} (hbinds : (h.define a name v).Binds b x) :
    h.Binds b x ∨ a = b ∧ name = x := by
  by_cases hframe : h.IsFrame a
  · unfold Heap.Binds at hbinds
    rw [Heap.vars_define hframe] at hbinds
    split at hbinds
    case isTrue hboth => exact .inr hboth
    case isFalse => exact .inl hbinds
  · rw [Heap.define_of_not_isFrame hframe] at hbinds
    exact .inl hbinds

/-- The new cell gets a ceiling of its own. -/
theorem grown_alloc (K : Ceilings) (h : Heap) (c : Cell) (names : String → Prop) :
    Grown K h (K.insert h.cells.size names) (h.alloc c).2 where
  le := h.le_alloc c
  same hframe x := by
    show (if _ then names x else K _ x) ↔ _
    rw [if_neg (Nat.ne_of_lt hframe.lt_size)]

/-- A new cell; if it is a frame, with a ceiling over its names. -/
theorem Heap.Settled.alloc (hsettled : h.Settled K) (c : Cell) (names : String → Prop)
    (hvars : ∀ vars, c = .frame vars → ∀ x v, vars.get? x = some v → names x ∧ v.Settled K h)
    (hfields : ∀ fields, c = .fields fields → fields = []) :
    (h.alloc c).2.Settled (K.insert h.cells.size names) := by
  have hg := grown_alloc K h c names
  -- a value in a frame is new with the frame, or was there before
  have hframes : ∀ {a x v}, ((h.alloc c).2.vars a).get? x = some v →
      a = h.cells.size ∧ names x ∧ v.Settled K h ∨ a ≠ h.cells.size ∧ (h.vars a).get? x = some v := by
    intro a x v hv
    rw [Heap.vars_alloc] at hv
    split at hv
    case isTrue ha =>
      cases c with
      | frame vars => exact .inl ⟨ha, hvars vars rfl x v hv⟩
      | fields | identity => cases hv
    case isFalse ha => exact .inr ⟨ha, hv⟩
  constructor
  case outermost => exact hg.le.frames hsettled.outermost
  case globals => exact fun x => (hg.same hsettled.outermost x).mpr (hsettled.globals x)
  case bounded =>
    intro a x hbinds
    obtain ⟨v, hv⟩ := Option.isSome_iff_exists.mp hbinds
    show if a = _ then names x else K a x
    rcases hframes hv with ⟨ha, hx, -⟩ | ⟨ha, hold⟩
    · rw [if_pos ha]
      exact hx
    · rw [if_neg ha]
      exact hsettled.bounded (Option.isSome_iff_exists.mpr ⟨v, hold⟩)
  case vars =>
    intro a x v hv
    rcases hframes hv with ⟨-, -, hv⟩ | ⟨-, hold⟩
    · exact hv.mono hg
    · exact (hsettled.vars hold).mono hg
  case fields =>
    intro a x v hv
    rw [Heap.fields_alloc] at hv
    split at hv
    · cases c with
      | fields fields =>
        rw [hfields fields rfl] at hv
        cases hv
      | frame | identity => cases hv
    · exact (hsettled.fields hv).mono hg

/-- A new frame whose names are under its ceiling. -/
theorem Heap.Settled.allocFrame (hsettled : h.Settled K) {vars : Bindings Value} {ceiling : List String}
    (hvars : ∀ x v, vars.get? x = some v → x ∈ ceiling ∧ v.Settled K h) :
    (h.alloc (.frame vars)).2.Settled (K.insert h.cells.size (· ∈ ceiling)) := by
  apply hsettled.alloc
  · intro vars' heq
    cases heq
    exact hvars
  · intro fields heq
    cases heq

/-- An environment with a new frame inside, which binds the names of a scope. -/
theorem Environment.Settled.allocFrame (henv : env.Settled K h S T) {vars : Bindings Value}
    {scope ceiling : List String} (hbinds : ∀ x ∈ scope, (vars.get? x).isSome) :
    Environment.Settled (K.insert h.cells.size (· ∈ ceiling)) (h.alloc (.frame vars)).2 (h.cells.size :: env)
      (scope :: S) (ceiling :: T) := by
  apply (henv.mono (grown_alloc K h (.frame vars) _)).cons (Heap.isFrame_alloc h vars) henv.size_notMem
  · intro x hx
    unfold Heap.Binds
    rw [Heap.vars_alloc, if_pos rfl]
    exact hbinds x hx
  · intro x hx
    have hnames : (if h.cells.size = h.cells.size then x ∈ ceiling else K _ x) := hx
    rwa [if_pos rfl] at hnames

/-- No ceiling is changed by a binding. -/
theorem grown_define (K : Ceilings) (h : Heap) (a : Address) (name : String) (v : Value) :
    Grown K h K (h.define a name v) :=
  ⟨h.le_define a name v, fun _ _ => Iff.rfl⟩

/-- A definition under the ceiling of its frame. The value need only be settled where it is bound already. -/
theorem Heap.Settled.define (hsettled : h.Settled K) {name : String} {v : Value} (hname : K a name)
    (hv : v.Settled K (h.define a name v)) : (h.define a name v).Settled K := by
  by_cases hf : h.IsFrame a
  · have hg := grown_define K h a name v
    constructor
    case outermost => exact hg.le.frames hsettled.outermost
    case globals => exact hsettled.globals
    case bounded =>
      intro b x hbinds
      rcases Heap.binds_of_define hbinds with hold | ⟨rfl, rfl⟩
      · exact hsettled.bounded hold
      · exact hname
    case vars =>
      intro b x w hw
      rw [Heap.vars_define hf] at hw
      split at hw
      · rw [← Option.some.inj hw]
        exact hv
      · exact (hsettled.vars hw).mono hg
    case fields =>
      intro b x w hw
      rw [Heap.fields_define] at hw
      exact (hsettled.fields hw).mono hg
  · -- a definition where there is no frame does nothing
    rwa [Heap.define_of_not_isFrame hf]

/-- Setting a field binds no name in a frame, so that no ceiling is touched. -/
theorem Heap.Settled.setField (hsettled : h.Settled K) {v : Value} (hv : v.Settled K h) (a : Address)
    (name : String) : (h.setField a name v).Settled K := by
  have hg : Grown K h K (h.setField a name v) := ⟨h.le_setField a name v, fun _ _ => Iff.rfl⟩
  constructor
  case outermost => exact hg.le.frames hsettled.outermost
  case globals => exact hsettled.globals
  case bounded =>
    intro b x hbinds
    unfold Heap.Binds at hbinds
    rw [Heap.vars_setField] at hbinds
    exact hsettled.bounded hbinds
  case vars =>
    intro b x w hw
    rw [Heap.vars_setField] at hw
    exact (hsettled.vars hw).mono hg
  case fields =>
    intro b x w hw
    rcases Heap.get?_fields_setField hw with ⟨-, -, rfl⟩ | hold
    · exact hv.mono hg
    · exact (hsettled.fields hold).mono hg

end

end LoxLang
