import LoxLang.Proofs.Cells.Calls

/-!
# Declarations side by side

A declaration binds a name in the innermost frame, and pushes a cell for it in front of the environment of cells.
Outside of local scopes both sides bind a global.

Of a function, the closure is made before its name is bound on frames, and on cells the cell of the name comes first,
as the closure has to see it. So the runs are compared over a whole declaration and not step by step.
-/

namespace LoxLang

open Eval

variable {W : World} {S : Scopes} {m m' : Machine}

/-- A name of a frame and the cell of the name, or a global on both sides. -/
def World.Holds (W : World) (a : Address) (name : String) (c : Address) : Prop :=
  W.place a name c ∨ (a = 0 ∧ c = 0)

theorem Heap.Alike.define {h h' : Heap} (halike : h.Alike W h') {a c : Address} {name : String}
    (hholds : W.Holds a name c) {v w : Value} (hvw : v.Alike W w) :
    (h.define a name v).Alike W (h'.define c name w) := by
  rcases hholds with hp | ⟨rfl, rfl⟩
  · exact halike.assign hp hvw
  · exact halike.assignGlobal hvw

/-- The head of an environment is a frame. -/
theorem Machine.Mirrors.exists_head (h : m.Mirrors W S m') :
    ∃ a env, m.environment = a :: env ∧ m.heap.IsFrame a := by
  have henv := h.environment
  cases S with
  | nil => exact ⟨0, [], henv.1, h.alike.heap.outermost.1⟩
  | cons scope S =>
    cases hm : m.environment with
    | nil =>
      rw [hm] at henv
      exact henv.elim
    | cons a env =>
      rw [hm] at henv
      exact ⟨a, env, rfl, (h.alike.heap.frames henv.1).2⟩

theorem Eval.declare_eq {name : Token} {v : Value} {a : Address} {env : Environment}
    (henv : m.environment = a :: env) :
    declare name v m = (.ok (), { m with heap := m.heap.define a name.lexeme v }) := by
  obtain ⟨heap, environment, printed, readings⟩ := m
  dsimp only at henv
  subst henv
  rfl

/-- A name without a value on both sides. -/
theorem Machine.Mirrors.introduce (h : m.Mirrors W S m') {name : Token} (hfresh : S.Fresh name.lexeme)
    {a : Address} {env : Environment} (henv : m.environment = a :: env) :
    ∃ W₁ c n', Cells.introduce (!S.isEmpty) name m' = (.ok c, n') ∧ W.Grows W₁ (some a) ∧
      W₁.Holds a name.lexeme c ∧
      Machine.Mirrors W₁ (S.declare [name.lexeme]) { m with heap := m.heap.define a name.lexeme .nil } n' := by
  have hmirrors := h.environment
  cases S with
  | nil =>
    rw [henv] at hmirrors
    obtain ⟨rfl, rfl⟩ := List.cons.inj hmirrors.1
    refine ⟨W, 0, _, rfl, .refl W _, Or.inr ⟨rfl, rfl⟩, ?_⟩
    exact ⟨⟨h.alike.heap.assignGlobal .nil, h.alike.printed, h.alike.readings⟩, h.environment, h.own⟩
  | cons scope S =>
    rw [henv] at hmirrors
    have hunplaced : ∀ c, ¬ W.place a name.lexeme c := by
      intro c hp
      exact hfresh (h.own (by rw [henv]; rfl) hp)
    have hframe := (h.alike.heap.frames hmirrors.1).2
    -- The frame binds the name first; then the name gets its cell.
    have hbound : Machine.Mirrors W (scope :: S) { m with heap := m.heap.define a name.lexeme .nil } m' := by
      refine ⟨⟨h.alike.heap.defineLeft hmirrors.1 hunplaced .nil, h.alike.printed, h.alike.readings⟩, ?_, h.own⟩
      exact h.environment
    have hget : ((m.heap.define a name.lexeme .nil).vars a).get? name.lexeme = some .nil := by
      rw [Heap.vars_define hframe, if_pos ⟨rfl, rfl⟩]
    obtain ⟨W₁, hgrows, hp, h₁⟩ := hbound.allocCell henv hget .nil hfresh
    exact ⟨W₁, _, _, rfl, hgrows, Or.inl hp, h₁⟩

/-! ## Statements

Locally a cell is added in front, and the world gets a place for it. Outside of scopes nothing is added, as globals are
shared. -/

/-- The end of a statement that declares a name: both sides give the name its value. -/
theorem Machine.Mirrors.define {W₁ : World} {n n' : Machine} {a c : Address} {name : String} {v w : Value}
    (h : n.Mirrors W₁ S n') (hholds : W₁.Holds a name c) (hvw : v.Alike W₁ w) :
    Machine.Mirrors W₁ S { n with heap := n.heap.define a name v } { n' with heap := n'.heap.define c name w } :=
  ⟨⟨h.alike.heap.define hholds hvw, h.alike.printed, h.alike.readings⟩, h.environment, h.own⟩

/-- A variable gets its cell when it is declared, with the value that its frame binds. -/
theorem Eval.declare_runs (h : m.Mirrors W S m') {name : Token} (hfresh : S.Fresh name.lexeme) {v w : Value}
    (hvw : v.Alike W w) :
    Runs W (do declare name v; return .completed)
      (do
        let cell ← Cells.introduce (!S.isEmpty) name
        define cell name.lexeme w
        return .completed)
      (fun W₁ n n' => n.Mirrors W₁ (S.declare [name.lexeme]) n') m m' := by
  obtain ⟨a, env, henv, -⟩ := h.exists_head
  obtain ⟨W₁, c, n', hintroduce, hgrows, hholds, h₁⟩ := h.introduce hfresh henv
  have h₂ := h₁.define hholds (hvw.mono hgrows)
  dsimp only at h₂
  rw [Heap.define_define] at h₂
  have hhead : m.environment.head? = some a := by rw [henv]; rfl
  unfold Runs Sim
  rw [bind_apply, declare_eq henv, bind_apply, hintroduce, hhead]
  exact ⟨W₁, hgrows, h₂.alike, rfl, .completed, fun _ => h₂⟩

/-- A function, which sees its own name. -/
theorem Closure.declare_runs (h : m.Mirrors W S m') {d : FunDecl Hops} (hfresh : S.Fresh d.name.lexeme)
    (hscoped : d.Scoped true (S.declare [d.name.lexeme])) :
    Runs W
      (do
        let f ← Closure.create d (← get).environment false
        declare d.name (.function f)
        return .completed)
      (do
        let cell ← Cells.introduce (!S.isEmpty) d.erased.name
        let f ← Closure.create d.erased (← get).environment false
        define cell d.erased.name.lexeme (.function f)
        return .completed)
      (fun W₁ n n' => n.Mirrors W₁ (S.declare [d.name.lexeme]) n') m m' := by
  obtain ⟨a, env, henv, hframe⟩ := h.exists_head
  -- on cells the name comes first and then the function; the plain run defines the name at the end
  obtain ⟨W₁, c, n', hintroduce, hgrows, hholds, h₁⟩ := h.introduce hfresh henv
  rw [FunDecl.erased_name]
  obtain ⟨W₂, hgrows₂, htwin, hheap⟩ := h₁.alike.heap.allocTwin .identity
  have hpass : Machine.Passes W₁ { m with heap := m.heap.define a d.name.lexeme .nil } n' W₂
      { m with heap := ((m.heap.define a d.name.lexeme .nil).alloc .identity).2 }
      { n' with heap := (n'.heap.alloc .identity).2 } :=
    ⟨hgrows₂, ⟨hheap, h₁.alike.printed, h₁.alike.readings⟩, rfl, rfl⟩
  have h₂ := h₁.pass hpass
  have hholds₂ : W₂.Holds a d.name.lexeme c := hholds.imp hgrows₂.place id
  have hsize : (m.heap.define a d.name.lexeme .nil).cells.size = m.heap.cells.size := Array.size_modify
  rw [hsize] at htwin
  have hvw : Value.Alike W₂ (.function ⟨m.heap.cells.size, d, m.environment, false⟩)
      (.function ⟨n'.heap.cells.size, d.erased, n'.environment, false⟩) :=
    .function ⟨_, ⟨htwin, rfl, h₂.environment, rfl⟩, hscoped, fun heq => by cases heq⟩
  have h₃ := h₂.define hholds₂ hvw
  dsimp only at h₃
  rw [Heap.alloc_define hframe, Heap.define_define] at h₃
  have hhead : m.environment.head? = some a := by rw [henv]; rfl
  have hplain : (do
      let f ← Closure.create d (← get).environment false
      declare d.name (.function f)
      return Completion.completed : Eval Completion) m = (.ok .completed, { m with
        heap := (m.heap.alloc .identity).2.define a d.name.lexeme
          (.function ⟨m.heap.cells.size, d, m.environment, false⟩) }) := by
    change (declare d.name (.function ⟨m.heap.cells.size, d, m.environment, false⟩) >>=
      fun _ => pure Completion.completed) { m with heap := (m.heap.alloc .identity).2 } = _
    rw [bind_apply, declare_eq (m := { m with heap := (m.heap.alloc .identity).2 }) henv]
    rfl
  unfold Runs Sim
  rw [hplain, bind_apply, hintroduce, hhead]
  exact ⟨W₂, hgrows.trans (hgrows₂.weaken _), h₃.alike, rfl, .completed, fun _ => h₃⟩

/-! ## Classes

A class declaration declares its name, makes its methods and assigns to the name. Between the first and the last step
the name has a cell that the methods capture. -/

namespace Eval

/-- Runs that declare names in the innermost scope. -/
def Declares (W : World) (T : Scopes) (act act' : Eval Unit) (m m' : Machine) : Prop :=
  Sim act act' (fun n n' _ _ => ∃ W₁, W.Grows W₁ m.environment.head? ∧ n.environment = m.environment ∧
    n.Mirrors W₁ T n') m m'

namespace Declares

variable {α β : Type} {T : Scopes}

/-- A step that declares nothing, at the end. -/
theorem last {act act' : Eval Unit} {P : World → Unit → Unit → Prop} (h : m.Mirrors W T m')
    (hact : Matches W act act' P m m') : Declares W T act act' m m' := by
  refine Sim.mono hact fun n n' _ _ hR => ?_
  obtain ⟨W₁, hpass, -⟩ := hR
  exact ⟨W₁, hpass.grows.weaken _, hpass.left, h.pass hpass⟩

/-- A part of the declaration that declares nothing. -/
theorem after {act : Eval α} {act' : Eval β} {P : World → α → β → Prop} {f : α → Eval Unit}
    {g : β → Eval Unit} (h : Matches W act act' P m m')
    (hf : ∀ W₁ n n' a b, m.Passes W m' W₁ n n' → P W₁ a b → Declares W₁ T (f a) (g b) n n') :
    Declares W T (act >>= f) (act' >>= g) m m' := by
  refine Sim.bind h fun n n' a b hR => ?_
  obtain ⟨W₁, hpass, hab⟩ := hR
  refine Sim.mono (hf W₁ n n' a b hpass hab) fun o o' _ _ hR' => ?_
  obtain ⟨W₂, hgrows, henv, hmirrors⟩ := hR'
  rw [hpass.left] at hgrows henv
  exact ⟨W₂, (hpass.grows.weaken _).trans hgrows, henv, hmirrors⟩

theorem get {f g : Machine → Eval Unit} (h : Declares W T (f m) (g m') m m') :
    Declares W T (MonadState.get >>= f) (MonadState.get >>= g) m m' :=
  h

/-- A name without a value, and what comes behind it. -/
theorem introduce (h : m.Mirrors W S m') {name : Token} (hfresh : S.Fresh name.lexeme)
    {f : Unit → Eval Unit} {g : Address → Eval Unit}
    (hf : ∀ W₁ n n' c, W.Grows W₁ m.environment.head? → n.environment = m.environment →
      n.Mirrors W₁ (S.declare [name.lexeme]) n' → Declares W₁ T (f ()) (g c) n n') :
    Declares W T (declare name .nil >>= f) (Cells.introduce (!S.isEmpty) name >>= g) m m' := by
  obtain ⟨a, env, henv, -⟩ := h.exists_head
  obtain ⟨W₁, c, n', hintroduce, hgrows, -, h₁⟩ := h.introduce hfresh henv
  have hhead : m.environment.head? = some a := by rw [henv]; rfl
  rw [← hhead] at hgrows
  unfold Declares Sim
  rw [bind_apply, declare_eq henv, bind_apply, hintroduce]
  refine Sim.mono (hf W₁ _ n' c hgrows rfl h₁) fun o o' _ _ hR' => ?_
  obtain ⟨W₂, hgrows', henv', hmirrors⟩ := hR'
  exact ⟨W₂, hgrows.trans hgrows', henv', hmirrors⟩

/-- A statement that declares and does nothing else. -/
theorem runs {act act' : Eval Unit} (h : Declares W T act act' m m') :
    Runs W (do act; return .completed) (do act'; return .completed) (fun W₁ n n' => n.Mirrors W₁ T n') m m' := by
  refine Sim.bind h fun n n' _ _ hR => ?_
  obtain ⟨W₁, hgrows, henv, hmirrors⟩ := hR
  exact ⟨W₁, hgrows, hmirrors.alike, henv, .completed, fun _ => hmirrors⟩

end Declares

/-- The name that was declared last is changed in its frame and in its cell. -/
theorem Matches.assignDeclared {name : Token} (h : m.Mirrors W (S.declare [name.lexeme]) m') {v w : Value}
    (hvw : v.Alike W w) :
    Matches W (Eval.assign m.environment name v) (Eval.assign m'.environment name w) (fun _ _ _ => True) m m' := by
  cases S with
  | nil =>
    rw [h.environment.1]
    exact Matches.assignGlobal h rfl hvw
  | cons scope S =>
    have hd : Scopes.hops ((name.lexeme :: scope) :: S) name.lexeme = some 0 := by
      rw [Scopes.hops_cons, if_pos List.mem_cons_self]
    -- the plain run looks for a frame with the name, and finds the first one
    have hleft : Eval.assign m.environment name v m = Eval.assignAt m.environment 0 name.lexeme v m := by
      obtain ⟨a, v₀, -, ha, hv₀, -⟩ := h.environment.values_of_hops h.alike.heap hd
      obtain ⟨a', env, henv, -⟩ := h.exists_head
      rw [henv] at ha
      cases ha
      have hholder : m.environment.holder? m.heap name.lexeme = some a := by
        unfold Environment.holder?
        rw [henv, List.find?_cons, hv₀]
        rfl
      unfold Eval.assign Eval.assignAt
      rw [get_bind, hholder, henv]
      rfl
    have hat := Matches.assignAt h hd hvw
    unfold Matches Sim at hat ⊢
    rw [hleft]
    exact hat

end Eval

namespace Runner

/-- A class on both sides or a mistake on both. -/
theorem superclass_matches (h : m.Mirrors W S m') {r : Reference Hops}
    (hnote : r.note = S.hops r.name.lexeme) :
    Eval.Matches W (superclass r) (Cells.superclass ⟨r.name, none⟩) (fun W c d => c.Alike W d) m m' := by
  refine (lookUp_matches h hnote).bind fun W₁ n n' v w hpass hvw => ?_
  cases hvw with
  | classValue hcd => exact .pure hpass.alike hcd
  | _ => exact .fail hpass.alike _ _

/-- Methods in the environment of a class. -/
theorem createMethods_matches (h : m.Alike W m') {env cells : Environment}
    (henv : Environment.Mirrors W S env cells) {ds : List (FunDecl Hops)}
    (hscoped : FunDecl.AllScoped true (["this"] :: S) ds) {methods methods' : Bindings Closure}
    (hmethods : ∀ name, Option.Rel (Closure.AlikeMethods W) (methods.get? name) (methods'.get? name)) :
    Eval.Matches W (createMethods env ds methods) (createMethods cells (FunDecl.erasedAll ds) methods')
      (fun W₁ methods methods' =>
        ∀ name, Option.Rel (Closure.AlikeMethods W₁) (methods.get? name) (methods'.get? name)) m m' := by
  -- method by method; the one that is made replaces another of its name on both sides
  induction ds generalizing W m m' methods methods' with
  | nil => exact .pure h hmethods
  | cons d ds ih =>
    obtain ⟨hd, hds⟩ := hscoped
    have hname : d.erased.name.lexeme = d.name.lexeme := by rw [FunDecl.erased_name]
    change Eval.Matches W _ (do
      let f ← Closure.create d.erased cells (d.erased.name.lexeme == "init")
      createMethods cells (FunDecl.erasedAll ds) (methods'.put d.erased.name.lexeme f)) _ m m'
    rw [hname]
    refine (Closure.create_matches h henv d _).bind fun W₁ n n' f g hpass ⟨halike, hdeclaration, _⟩ => ?_
    refine ih hpass.alike (henv.mono hpass.grows) hds fun name => ?_
    rw [Bindings.get?_put, Bindings.get?_put]
    by_cases heq : d.name.lexeme = name
    · rw [if_pos heq, if_pos heq]
      exact .some ⟨S, halike, by rw [hdeclaration]; exact hd⟩
    · rw [if_neg heq, if_neg heq]
      exact optionRel_imp (hmethods name) fun _ _ hfg => hfg.mono hpass.grows

/-- The last steps of a class declaration. -/
theorem defineClass_declares {name : Token} (h : m.Mirrors W (S.declare [name.lexeme]) m')
    {inner inner' : Environment} {S' : Scopes} (hinner : Environment.Mirrors W S' inner inner')
    {ds : List (FunDecl Hops)} (hscoped : FunDecl.AllScoped true (["this"] :: S') ds)
    {parent parent' : Option Class} (hparent : Option.Rel (Class.Alike W) parent parent') :
    let define (env inner : Environment) (ds : List (FunDecl Hops)) (parent : Option Class) : Eval Unit := do
      let methods ← createMethods inner ds []
      let own : ClassLayer := ⟨← Eval.alloc .identity, name.lexeme, methods⟩
      let inherited := parent.elim [] fun c => c.own :: c.inherited
      Eval.assign env name (.classValue ⟨own, inherited⟩)
    Eval.Declares W (S.declare [name.lexeme]) (define m.environment inner ds parent)
      (define m'.environment inner' (FunDecl.erasedAll ds) parent') m m' := by
  intro define
  refine Declares.after (createMethods_matches h.alike hinner hscoped fun _ => .none)
    fun W₁ n n' methods methods' hpass hmethods => ?_
  refine Declares.after (Matches.allocTwin hpass.alike .identity) fun W₂ o o' b b' hpass₂ htwin => ?_
  have hpass' := hpass.trans hpass₂
  have h₂ := h.pass hpass'
  -- what the class declares itself, and then what it inherits
  have hown : ClassLayer.Alike W₂ ⟨b, name.lexeme, methods⟩ ⟨b', name.lexeme, methods'⟩ :=
    ⟨htwin, rfl, fun n => optionRel_imp (hmethods n) fun _ _ hfg => hfg.mono hpass₂.grows⟩
  have hclass : Class.Alike W₂ ⟨⟨b, name.lexeme, methods⟩, parent.elim [] fun c => c.own :: c.inherited⟩
      ⟨⟨b', name.lexeme, methods'⟩, parent'.elim [] fun c => c.own :: c.inherited⟩ := by
    refine ⟨hown, ?_⟩
    cases hparent with
    | none => exact .nil
    | some hcd =>
      have hcd' := hcd.mono hpass'.grows
      exact .cons hcd'.own hcd'.inherited
  have hassign := Matches.assignDeclared h₂ (.classValue hclass)
  rw [hpass'.left, hpass'.right] at hassign
  exact Declares.last h₂ hassign

/-- A class, with or without a superclass. -/
theorem declareClass_declares (h : m.Mirrors W S m') {name : Token} {heritage : Option (Reference Hops)}
    {methods : List (FunDecl Hops)} (hscoped : (Stmt.class name heritage methods).Scoped true S) :
    Eval.Declares W (S.declare [name.lexeme]) (declareClass name heritage methods)
      (Cells.declareClass (!S.isEmpty) name (heritage.map fun r => ⟨r.name, none⟩)
        (FunDecl.erasedAll methods)) m m' := by
  obtain ⟨hfresh, -, hmethods⟩ := hscoped
  unfold declareClass Cells.declareClass
  dsimp only
  cases heritage with
  | none =>
    rw [Option.map_none, pure_bind, pure_bind]
    refine Declares.introduce h hfresh fun W₁ n n' _ _ _ h₁ => Declares.get ?_
    dsimp only
    rw [pure_bind, pure_bind]
    exact defineClass_declares h₁ h₁.environment hmethods .none
  | some r =>
    obtain ⟨hnote, hmethods⟩ := hmethods
    have hparent := (superclass_matches h hnote).map (f := some) (g := some)
      (Q := fun W p p' => ∃ c d, p = some c ∧ p' = some d ∧ c.Alike W d)
      fun _ c d _ hcd => ⟨c, d, rfl, rfl, hcd⟩
    refine Declares.after hparent fun W₁ n n' parent parent' hpass hcd => ?_
    obtain ⟨c, d, rfl, rfl, hcd⟩ := hcd
    refine Declares.introduce (h.pass hpass) hfresh fun W₂ o o' _ hgrows _ h₂ => Declares.get ?_
    have hcd₂ := hcd.mono hgrows
    -- The frame of `super` lies inside that of the class's name.
    have hcell := (Matches.allocCell h₂.alike "super" (.classValue hcd₂)).map
      (f := (· :: o.environment)) (g := (· :: o'.environment))
      (Q := fun W env cells => Environment.Mirrors W (["super"] :: S.declare [name.lexeme]) env cells)
      fun W₃ a b hgrows₃ hab => ((h₂.environment.mono hgrows₃).enter hab.1).cons hab.2
    refine Declares.after hcell fun W₃ q q' inner inner' hpass₃ hinner => ?_
    rw [← hpass₃.left, ← hpass₃.right]
    have hparent₃ : Option.Rel (Class.Alike W₃) (some c) (some d) := .some (hcd₂.mono hpass₃.grows)
    exact defineClass_declares (h₂.pass hpass₃) hinner hmethods hparent₃

end Runner

end LoxLang
