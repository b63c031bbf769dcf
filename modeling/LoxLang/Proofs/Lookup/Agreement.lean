import LoxLang.Proofs.Lookup.Ceilings
import LoxLang.Proofs.Lookup.Compared

/-!
# Runs that agree with a search

`Eval.Agrees` is a triple for a compared run and the plain one: from a settled heap both do the same and leave a
settled heap, on which no old frame has got a name but the innermost one, and that only names which are declared there.

* **`Machine.Placed.agrees`** — where the references of a tree are steady, a search finds what the resolver has noted.
* **`Eval.Agrees.bind`** — one run after another.
* **`Eval.Agrees.inFrame`** — a run in a new frame.

The names in the triple are those that the run may declare in the frame it is in. All other frames have the names
afterwards that they had before, since a block or a call declares in a frame of its own.
-/

namespace LoxLang

/-- What a run leaves: a settled heap that has grown, with new names in the innermost frame only, and the environment
it began in. -/
structure Machine.Reaches (names : List String) (K : Ceilings) (m : Machine) (K' : Ceilings) (m' : Machine) :
    Prop where
  settled : m'.heap.Settled K'
  grown : Grown K m.heap K' m'.heap
  gains : ∀ {a}, m.heap.IsFrame a → ∀ x, m'.heap.Binds a x →
    m.heap.Binds a x ∨ m.environment.head? = some a ∧ x ∈ names
  environment : m'.environment = m.environment

/-- A machine with a settled heap at a place: scopes have declared `S`, its frames bind at most `D` now, and `T` in the
end. -/
structure Machine.Placed (K : Ceilings) (S D T : Scopes) (m : Machine) : Prop where
  settled : m.heap.Settled K
  scopes : m.environment.Settled K m.heap S T
  under : m.environment.Under m.heap.Binds D

/-- The innermost frame may get the names. -/
def Machine.HasRoom (K : Ceilings) (names : List String) (m : Machine) : Prop :=
  ∀ a ∈ m.environment.head?, ∀ x ∈ names, K a x

/-- A compared run and the plain one agree, and what they leave is settled. -/
def Eval.Agrees {α : Type} (compared plain : Eval α) (names : List String) (Q : Ceilings → Heap → α → Prop)
    (K : Ceilings) (m : Machine) : Prop :=
  compared m = plain m ∧ ∃ K', m.Reaches names K K' (plain m).2 ∧
    ∀ a, (plain m).1 = .ok a → Q K' (plain m).2.heap a

section

variable {K K' K'' : Ceilings} {m m' m'' : Machine} {S D T : Scopes} {names names' : List String}

theorem Machine.Reaches.refl (hsettled : m.heap.Settled K) : m.Reaches names K K m :=
  ⟨hsettled, .refl K m.heap, fun _ _ hbinds => .inl hbinds, rfl⟩

/-- The names that two runs declare are put together. -/
theorem Machine.Reaches.trans (h : m.Reaches names K K' m') (h' : m'.Reaches names' K' K'' m'') :
    m.Reaches (names ++ names') K K'' m'' where
  settled := h'.settled
  grown := h.grown.trans h'.grown
  environment := h'.environment.trans h.environment
  gains {a} hframe x hbinds := by
    -- both runs begin in one environment, so that their innermost frame is the same
    rcases h'.gains (h.grown.le.frames hframe) x hbinds with hbefore | ⟨hhead, hx⟩
    · rcases h.gains hframe x hbefore with hold | ⟨hhead, hx⟩
      · exact .inl hold
      · exact .inr ⟨hhead, List.mem_append_left _ hx⟩
    · rw [h.environment] at hhead
      exact .inr ⟨hhead, List.mem_append_right _ hx⟩

/-- A run that declares some names declares no others. -/
theorem Machine.Reaches.append (h : m.Reaches names K K' m') (names' : List String) :
    m.Reaches (names ++ names') K K' m' :=
  h.trans (.refl h.settled)

namespace Machine.Placed

theorem declare (h : m.Placed K S D T) (hreach : m.Reaches names K K' m')
    (hscopes : m.environment.Settled K' m'.heap (S.declare names) T) :
    m'.Placed K' (S.declare names) (D.declare names) T := by
  constructor
  case settled => exact hreach.settled
  case scopes =>
    rw [hreach.environment]
    exact hscopes
  case under =>
    rw [hreach.environment]
    apply h.under.declare h.scopes.nodup
    exact fun a ha x hbinds => hreach.gains (h.scopes.frames a ha) x hbinds

/-- A run that declares nothing here leaves the place as it was. -/
theorem mono (h : m.Placed K S D T) (hreach : m.Reaches [] K K' m') : m'.Placed K' S D T := by
  have hscopes : m.environment.Settled K' m'.heap (S.declare []) T := by
    rw [Scopes.declare_nil_right]
    exact h.scopes.mono hreach.grown
  have hdeclared := h.declare hreach hscopes
  rwa [Scopes.declare_nil_right, Scopes.declare_nil_right] at hdeclared

end Machine.Placed

/-- In a new frame inside an environment. -/
theorem Machine.Placed.inFrame (hsettled : m.heap.Settled K) {env : Environment} (henv : env.Settled K m.heap S T)
    (hunder : env.Under m.heap.Binds D) {vars : Bindings Value} {scope ceiling : List String}
    (hbinds : ∀ x ∈ scope, (vars.get? x).isSome)
    (hvars : ∀ x v, vars.get? x = some v → x ∈ scope ∧ v.Settled K m.heap) (hsubset : scope ⊆ ceiling) :
    Machine.Placed (K.insert m.heap.cells.size (· ∈ ceiling)) (scope :: S) (scope :: D) (ceiling :: T)
      { m with heap := (m.heap.alloc (.frame vars)).2, environment := m.heap.cells.size :: env } where
  settled := hsettled.allocFrame fun x v hv => ⟨hsubset (hvars x v hv).1, (hvars x v hv).2⟩
  scopes := henv.allocFrame hbinds
  under := by
    constructor
    · intro x hx
      unfold Heap.Binds at hx
      rw [Heap.vars_alloc, if_pos rfl] at hx
      obtain ⟨v, hv⟩ := Option.isSome_iff_exists.mp hx
      exact (hvars x v hv).1
    · exact hunder.imp fun a ha x hx => Heap.binds_of_alloc (henv.frames a ha) hx

/-- The innermost frame keeps its ceiling. -/
theorem Machine.HasRoom.mono (hroom : m.HasRoom K names) (hscopes : m.environment.Settled K m.heap S T)
    (hreach : m.Reaches names' K K' m') : m'.HasRoom K' names := by
  intro a ha x hx
  rw [hreach.environment] at ha
  exact (hreach.grown.same (hscopes.frames a (List.mem_of_mem_head? ha)) x).mpr (hroom a ha x hx)

/-- Fewer names need less room. -/
theorem Machine.HasRoom.subset (hroom : m.HasRoom K names) (hsubset : names' ⊆ names) : m.HasRoom K names' :=
  fun a ha x hx => hroom a ha x (hsubset hx)

/-- A new frame may get the names of its ceiling. -/
theorem Machine.HasRoom.inFrame {vars : Bindings Value} {env : Environment} {ceiling : List String}
    (hsubset : names ⊆ ceiling) :
    Machine.HasRoom (K.insert m.heap.cells.size (· ∈ ceiling)) names
      { m with heap := (m.heap.alloc (.frame vars)).2, environment := m.heap.cells.size :: env } := by
  intro a ha x hx
  obtain rfl : m.heap.cells.size = a := Option.some.inj ha
  show if m.heap.cells.size = m.heap.cells.size then x ∈ ceiling else K _ x
  rw [if_pos rfl]
  exact hsubset hx

theorem Machine.HasRoom.nil : m.HasRoom K [] :=
  fun _ _ _ hx => absurd hx List.not_mem_nil

end

/-! ## Look-ups

A search ends at the first frame that binds the name. Which one that is follows from what the frames may bind and what
the scopes have declared, if the two agree about the name. -/

section

variable {K : Ceilings} {m : Machine} {S D T : Scopes}

/-- A value is read in the frame where the search ends. -/
theorem Environment.get?_eq_bind_holder? (env : Environment) (h : Heap) (x : String) :
    env.get? h x = (env.holder? h x).bind fun a => (h.vars a).get? x := by
  induction env with
  | nil => rfl
  | cons a env ih =>
    have hcons : get? (a :: env) h x = ((h.vars a).get? x).or (get? env h x) := by
      unfold get?
      rw [List.findSome?_cons]
      cases (h.vars a).get? x <;> rfl
    rw [hcons, holder?_cons, ih]
    cases hvalue : (h.vars a).get? x with
    | some v => exact hvalue.symm
    | none => rfl

/-- Outside of everything the global frame is searched. -/
theorem Environment.get?_globals (h : Heap) (x : String) : globals.get? h x = (h.vars 0).get? x :=
  List.findSome?_singleton

/-- It is found if it has the name. -/
theorem Environment.holder?_globals {h : Heap} {x : String} (hbinds : h.Binds 0 x) : globals.holder? h x = some 0 := by
  rw [globals, holder?_cons]
  exact if_pos hbinds

/-- The frame where a search ends binds the name. -/
theorem Environment.binds_of_holder? {env : Environment} {h : Heap} {x : String} {a : Address}
    (ha : env.holder? h x = some a) : h.Binds a x := by
  have hfound := List.find?_some ha
  exact hfound

/-- The frame that a search finds for a steady reference. -/
theorem Machine.Placed.holder? (h : m.Placed K S D T) {r : Reference Hops} (hr : r.Steady S D) :
    m.environment.holder? m.heap r.name.lexeme
      = r.note.elim (Environment.globals.holder? m.heap r.name.lexeme) (m.environment[·]?) := by
  rw [hr.note]
  exact Environment.holder?_of_agree h.scopes.fits h.under hr.hops

/-- A resolved reference that is steady finds a frame that binds its name. -/
theorem Machine.Placed.frame (h : m.Placed K S D T) {r : Reference Hops} (hr : r.Steady S D) {d : Nat}
    (hd : r.note = some d) : ∃ a, m.environment[d]? = some a ∧ m.heap.Binds a r.name.lexeme :=
  h.scopes.fits.binds (hr.note.symm.trans hd)

/-- The search ends in the frame to which the reference leads. -/
theorem Reference.agrees_of_found {α : Type} {r : Reference Hops} {access : Eval α} {a : Address}
    (hsearch : m.environment.holder? m.heap r.name.lexeme = some a) (hframe : r.frame? m = some a)
    (haccess : access.endsUndefined m = false) : r.agrees access m = true := by
  unfold Reference.agrees
  rw [hsearch, hframe, haccess]
  simp

/-- The search ends nowhere, and the access reports that. -/
theorem Reference.agrees_of_missing {α : Type} {r : Reference Hops} {access : Eval α}
    (hsearch : m.environment.holder? m.heap r.name.lexeme = none) (haccess : access.endsUndefined m = true) :
    r.agrees access m = true := by
  unfold Reference.agrees
  rw [hsearch]
  exact haccess

/-- An access to a steady reference agrees with the search if it succeeds in a frame that binds the name, and complains
of an undefined variable when the globals do not bind it. -/
theorem Machine.Placed.agrees {α : Type} (h : m.Placed K S D T) {r : Reference Hops} (hr : r.Steady S D)
    {access : Eval α}
    (hfound : ∀ a, r.frame? m = some a → m.heap.Binds a r.name.lexeme → access.endsUndefined m = false)
    (hmissing : r.note = none → Environment.globals.holder? m.heap r.name.lexeme = none →
      access.endsUndefined m = true) : r.agrees access m = true := by
  have hsearch := h.holder? hr
  cases hd : r.note with
  | some d =>
    obtain ⟨a, ha, hbinds⟩ := h.frame hr hd
    have hframe : r.frame? m = some a := by
      unfold Reference.frame?
      rw [hd]
      exact ha
    rw [hd] at hsearch
    exact Reference.agrees_of_found (hsearch.trans ha) hframe (hfound a hframe hbinds)
  | none =>
    have hframe : r.frame? m = some 0 := by
      unfold Reference.frame?
      rw [hd]
      rfl
    rw [hd, Option.elim_none] at hsearch
    cases hglobal : Environment.globals.holder? m.heap r.name.lexeme with
    | none => exact Reference.agrees_of_missing (hsearch.trans hglobal) (hmissing hd hglobal)
    | some a =>
      -- the globals are one frame
      obtain rfl : a = 0 := List.mem_singleton.mp (List.mem_of_find?_eq_some hglobal)
      have hbinds := Environment.binds_of_holder? hglobal
      exact Reference.agrees_of_found (hsearch.trans hglobal) hframe (hfound 0 hframe hbinds)

end

/-! ## Rules

The names of two runs are put one behind the other. A rule for a run in a new frame gives up the names that it declares
there. -/

namespace Eval

variable {α β : Type}

/-- A run in a new frame inside an environment. -/
def inFrame (vars : Bindings Value) (env : Environment) (act : Eval α) : Eval α := do
  let frame ← alloc (.frame vars)
  within (frame :: env) act

variable {K : Ceilings} {m : Machine} {S D T : Scopes} {names names' : List String}

namespace Agrees

variable {c p : Eval α} {f g : α → Eval β} {P : Ceilings → Heap → α → Prop} {Q : Ceilings → Heap → β → Prop}

/-- A run that gives a result in one step. -/
theorem of_ok {act : Eval α} {K' : Ceilings} {m' : Machine} {a : α} (hact : act m = (.ok a, m'))
    (hreach : m.Reaches names K K' m') (ha : P K' m'.heap a) : Agrees act act names P K m := by
  unfold Agrees
  rw [hact]
  refine ⟨rfl, K', hreach, fun b hb => ?_⟩
  cases hb
  exact ha

theorem pure (hsettled : m.heap.Settled K) {a : α} (ha : P K m.heap a) :
    Agrees (pure a) (pure a) names P K m :=
  of_ok rfl (.refl hsettled) ha

/-- Both runs stop for the same reason. -/
theorem stop (hsettled : m.heap.Settled K) (stop : Stop) : Agrees (throw stop) (throw stop) names P K m :=
  ⟨rfl, K, .refl hsettled, fun _ h => by cases h⟩

theorem still (hsettled : m.heap.Settled K) {act : Eval Value} (h : Still act) :
    Agrees act act names (fun K h v => v.Settled K h) K m := by
  cases h with
  | value hv => exact pure hsettled (Value.Settled.of_isPlain hv)
  | stop hstop => exact stop hsettled _

theorem fail (hsettled : m.heap.Settled K) (cause : Cause) (token : Token) :
    Agrees (fail cause token) (fail cause token) names P K m :=
  stop hsettled _

/-- What is known of results may be weakened. -/
theorem mono {P' : Ceilings → Heap → α → Prop} (h : Agrees c p names P K m)
    (himp : ∀ K' m', m.Reaches names K K' m' → ∀ a, P K' m'.heap a → P' K' m'.heap a) :
    Agrees c p names P' K m := by
  obtain ⟨heq, K', hreach, hpost⟩ := h
  exact ⟨heq, K', hreach, fun a ha => himp K' _ hreach a (hpost a ha)⟩

/-- One run after another, on the heap that the first one has settled. -/
theorem bind (h : Agrees c p names P K m)
    (hf : ∀ a K' m', m.Reaches names K K' m' → P K' m'.heap a → Agrees (f a) (g a) names' Q K' m') :
    Agrees (c >>= f) (p >>= g) (names ++ names') Q K m := by
  obtain ⟨heq, K', hreach, hpost⟩ := h
  unfold Agrees
  rw [bind_apply, bind_apply, heq]
  rcases hp : p m with ⟨result, m'⟩
  rw [hp] at hreach hpost
  cases result with
  | error stop =>
    -- what comes behind a stop is not run, and adds no names
    exact ⟨rfl, K', hreach.append names', fun _ h => by cases h⟩
  | ok a =>
    obtain ⟨heq', K'', hreach', hpost'⟩ := hf a K' m' hreach (hpost a rfl)
    exact ⟨heq', K'', hreach.trans hreach', hpost'⟩

/-- The result is changed on both sides. -/
theorem map {f : α → β} (h : Agrees c p names P K m)
    (hf : ∀ a K' m', m.Reaches names K K' m' → P K' m'.heap a → Q K' m'.heap (f a)) :
    Agrees (f <$> c) (f <$> p) names Q K m := by
  rw [map_eq_pure_bind, map_eq_pure_bind]
  have hbind : Agrees (c >>= fun a => Pure.pure (f a)) (p >>= fun a => Pure.pure (f a)) (names ++ []) Q K m :=
    h.bind fun a K' m' hreach ha => pure hreach.settled (hf a K' m' hreach ha)
  rwa [List.append_nil] at hbind

theorem get {f g : Machine → Eval β} (h : Agrees (f m) (g m) names Q K m) :
    Agrees (MonadState.get >>= f) (MonadState.get >>= g) names Q K m :=
  h

theorem ensuring {check : Machine → Bool} (hcheck : check m = true) (h : Agrees c p names P K m) :
    Agrees (ensuring check c) p names P K m := by
  unfold Agrees Eval.ensuring
  rw [if_pos hcheck]
  exact h

/-- Both calls are too deep or none is. -/
theorem overflowAt {token : Token} (h : Agrees c p names P K m) :
    Agrees (overflowAt token c) (Eval.overflowAt token p) names P K m := by
  obtain ⟨heq, K', hreach, hpost⟩ := h
  unfold Agrees Eval.overflowAt
  rw [heq]
  rcases hp : p m with ⟨result, m'⟩
  rw [hp] at hreach hpost
  match result with
  | .ok a => exact ⟨rfl, K', hreach, hpost⟩
  | .error (.error _) | .error (.fault _) | .error .tooLong | .error .tooDeep =>
    exact ⟨rfl, K', hreach, fun _ h => by cases h⟩

/-! ### The heap

A binding needs room under the ceiling of its frame, and for a new name the frame has to be the innermost one. -/

/-- A cell that is no frame binds nothing, so that the ceilings stay as they are. -/
theorem alloc (hsettled : m.heap.Settled K) {cell : Cell} (hcell : cell = .identity ∨ cell = .fields []) :
    Agrees (alloc cell) (alloc cell) [] (fun _ _ _ => True) K m := by
  have hvars : ∀ vars, cell ≠ .frame vars := by
    intro vars heq
    subst heq
    rcases hcell with h | h <;> cases h
  have hfields : ∀ fields, cell = .fields fields → fields = [] := by
    intro fields heq
    subst heq
    rcases hcell with h | h <;> cases h
    rfl
  -- a cell that is no frame may get any ceiling
  have hsettled' := hsettled.alloc cell (fun _ => False) (fun vars heq => absurd heq (hvars vars)) hfields
  refine of_ok rfl ⟨hsettled', grown_alloc K m.heap cell _, ?_, rfl⟩ trivial
  intro a hframe x hbinds
  exact .inl (Heap.binds_of_alloc hframe hbinds)

/-- A frame that binds one name is put before an environment. -/
theorem allocFrame (hsettled : m.heap.Settled K) {env : Environment} (henv : env.Settled K m.heap S T) (name : String)
    {v : Value} (hv : v.Settled K m.heap) :
    Agrees (Eval.alloc (.frame [(name, v)])) (Eval.alloc (.frame [(name, v)])) []
      (fun K' h a => Environment.Settled K' h (a :: env) ([name] :: S) ([name] :: T)) K m := by
  have hbinds : ∀ x ∈ [name], (Bindings.get? [(name, v)] x).isSome := by
    intro x hx
    rw [Bindings.get?_singleton, if_pos (List.mem_singleton.mp hx).symm]
    rfl
  have hvars : ∀ x w, Bindings.get? [(name, v)] x = some w → x ∈ [name] ∧ w.Settled K m.heap := by
    intro x w hw
    rw [Bindings.get?_singleton] at hw
    split at hw
    case isTrue hx =>
      cases hw
      exact ⟨List.mem_singleton.mpr hx.symm, hv⟩
    case isFalse => cases hw
  have hsettled' := hsettled.allocFrame hvars
  refine of_ok rfl ⟨hsettled', grown_alloc K m.heap _ _, ?_, rfl⟩ (henv.allocFrame hbinds)
  intro a hframe x hbinds
  exact .inl (Heap.binds_of_alloc hframe hbinds)

/-- A run in a new frame, whatever names it gets. -/
theorem inFrame {vars : Bindings Value} {env : Environment} {ceiling : List String}
    (h : Agrees c p names P (K.insert m.heap.cells.size (· ∈ ceiling))
      { m with heap := (m.heap.alloc (.frame vars)).2, environment := m.heap.cells.size :: env }) :
    Agrees (Eval.inFrame vars env c) (Eval.inFrame vars env p) [] P K m := by
  obtain ⟨heq, K', hreach, hpost⟩ := h
  -- the run begins on a heap with the new frame, and the environment is put back in the end
  have hrun : ∀ act : Eval α, Eval.inFrame vars env act m
      = ((act { m with heap := (m.heap.alloc (.frame vars)).2, environment := m.heap.cells.size :: env }).1,
        { (act { m with heap := (m.heap.alloc (.frame vars)).2, environment := m.heap.cells.size :: env }).2 with
          environment := m.environment }) := fun _ => rfl
  unfold Agrees
  rw [hrun, hrun, heq]
  refine ⟨rfl, K', ⟨hreach.settled, (grown_alloc K m.heap _ _).trans hreach.grown, ?_, rfl⟩, hpost⟩
  intro a hframe x hbinds
  rcases hreach.gains ((m.heap.le_alloc _).frames hframe) x hbinds with hold | ⟨hhead, -⟩
  · exact .inl (Heap.binds_of_alloc hframe hold)
  · -- the new frame is no old one
    cases hhead
    exact absurd hframe.lt_size (Nat.lt_irrefl _)

/-- A name is bound that the frame has, or that the innermost one may get. -/
theorem define (hsettled : m.heap.Settled K) {a : Address} {name : String} {v : Value} (hroom : K a name)
    (hv : v.Settled K (m.heap.define a name v))
    (hgain : m.heap.Binds a name ∨ m.environment.head? = some a ∧ name ∈ names) :
    Agrees (define a name v) (Eval.define a name v) names (fun K' h _ => K' = K ∧ h = m.heap.define a name v) K m := by
  refine of_ok rfl ⟨hsettled.define hroom hv, grown_define K m.heap a name v, ?_, rfl⟩ ⟨rfl, rfl⟩
  intro b hframe x hbinds
  rcases Heap.binds_of_define hbinds with hold | ⟨rfl, rfl⟩
  · exact .inl hold
  · exact hgain

/-- A definition of a name that is bound adds none. -/
theorem redefine (hsettled : m.heap.Settled K) {a : Address} {name : String} {v : Value}
    (hbinds : m.heap.Binds a name) (hv : v.Settled K m.heap) :
    Agrees (Eval.define a name v) (Eval.define a name v) [] (fun _ _ _ => True) K m :=
  (define hsettled (hsettled.bounded hbinds) (hv.mono (grown_define K m.heap a name v)) (.inl hbinds)).mono
    fun _ _ _ _ _ => trivial

/-- A field is no binding of a frame. -/
theorem setField (hsettled : m.heap.Settled K) {v : Value} (hv : v.Settled K m.heap) (a : Address) (name : String) :
    Agrees (setField a name v) (Eval.setField a name v) [] (fun _ _ _ => True) K m := by
  have hgrown : Grown K m.heap K (m.heap.setField a name v) := ⟨m.heap.le_setField a name v, fun _ _ => Iff.rfl⟩
  refine of_ok rfl ⟨hsettled.setField hv a name, hgrown, ?_, rfl⟩ trivial
  intro b hframe x hbinds
  unfold Heap.Binds at hbinds
  rw [Heap.vars_setField] at hbinds
  exact .inl hbinds

/-- Printing leaves the heap alone. -/
theorem print (hsettled : m.heap.Settled K) (text : String) :
    Agrees (print text) (Eval.print text) [] (fun _ _ _ => True) K m :=
  of_ok rfl ⟨hsettled, .refl K m.heap, fun _ _ hbinds => .inl hbinds, rfl⟩ trivial

/-- The clock shows a number. -/
theorem readClock (hsettled : m.heap.Settled K) (settings : Settings) :
    Agrees (readClock settings) (Eval.readClock settings) [] (fun K h v => v.Settled K h) K m :=
  of_ok rfl ⟨hsettled, .refl K m.heap, fun _ _ hbinds => .inl hbinds, rfl⟩ trivial

/-! ### Variables

To read or to change a variable gives no frame a new name; only a declaration does. -/

/-- What is read comes from a settled heap. -/
theorem readAt (hsettled : m.heap.Settled K) (env : Environment) (d : Nat) (name : String) :
    Agrees (readAt env d name) (Eval.readAt env d name) [] (fun K h v => v.Settled K h) K m := by
  apply get
  cases hv : env.getAt m.heap d name with
  | error f => exact stop hsettled _
  | ok v =>
    obtain ⟨a, ha⟩ := Environment.exists_of_getAt hv
    exact pure hsettled (hsettled.vars ha)

theorem read (hsettled : m.heap.Settled K) (env : Environment) (name : Token) :
    Agrees (read env name) (Eval.read env name) [] (fun K h v => v.Settled K h) K m := by
  apply get
  cases hget : env.get? m.heap name.lexeme with
  | none => exact fail hsettled _ _
  | some v =>
    obtain ⟨a, -, ha⟩ := List.exists_of_findSome?_eq_some hget
    exact pure hsettled (hsettled.vars ha)

/-- The frame where the search ends has the name. -/
theorem assign (hsettled : m.heap.Settled K) (env : Environment) (name : Token) {v : Value}
    (hv : v.Settled K m.heap) :
    Agrees (assign env name v) (Eval.assign env name v) [] (fun _ _ _ => True) K m := by
  apply get
  cases ha : env.holder? m.heap name.lexeme with
  | none => exact fail hsettled _ _
  | some a => exact redefine hsettled (Environment.binds_of_holder? ha) hv

/-- The frame at the distance has the name. -/
theorem assignAt (hsettled : m.heap.Settled K) {env : Environment} {d : Nat} {name : String} {a : Address}
    (ha : env[d]? = some a) (hbinds : m.heap.Binds a name) {v : Value} (hv : v.Settled K m.heap) :
    Agrees (assignAt env d name v) (Eval.assignAt env d name v) [] (fun _ _ _ => True) K m := by
  have hrun : Eval.assignAt env d name v = Eval.define a name v := by
    unfold Eval.assignAt
    rw [Environment.frameAt_of_getElem? ha]
    rfl
  rw [hrun]
  exact redefine hsettled hbinds hv

/-- After a declaration the innermost scope declares the name, and the value may make use of it. -/
theorem declare (h : m.Placed K S D T) {name : Token} (hroom : m.HasRoom K [name.lexeme]) {v : Value}
    (hv : ∀ {h'}, Grown K m.heap K h' → m.environment.Settled K h' (S.declare [name.lexeme]) T → v.Settled K h') :
    Agrees (declare name v) (Eval.declare name v) [name.lexeme]
      (fun K' h _ => m.environment.Settled K' h (S.declare [name.lexeme]) T) K m := by
  apply get
  cases henv : m.environment with
  | nil =>
    -- outside of all frames there would not even be globals
    exact absurd (h.scopes.ne_nil) (not_not.mpr henv)
  | cons a env =>
    have hgrown := grown_define K m.heap a name.lexeme v
    have hmem : a ∈ m.environment := by
      rw [henv]
      exact List.mem_cons_self
    have hhead : m.environment.head? = some a := by
      rw [henv]
      rfl
    have hscopes : m.environment.Settled K (m.heap.define a name.lexeme v) (S.declare [name.lexeme]) T := by
      have hlater := h.scopes.mono hgrown
      refine ⟨hlater.fits.declare ?_, hlater.under, hlater.nodup, hlater.frames⟩
      intro b hb _ x hx
      obtain rfl : a = b := Option.some.inj (hhead.symm.trans hb)
      rw [List.mem_singleton.mp hx]
      exact Heap.binds_define (h.scopes.frames a hmem)
    have hname : K a name.lexeme := hroom a hhead name.lexeme (List.mem_singleton_self _)
    have hdefine := define h.settled hname (hv hgrown hscopes) (.inr ⟨hhead, List.mem_singleton_self _⟩)
    rw [henv] at hscopes
    apply hdefine.mono
    rintro K' m' - - ⟨rfl, hheap⟩
    rw [hheap]
    exact hscopes

end Agrees

end Eval

end LoxLang
