import LoxLang.Proofs.Cells.Simulation

/-!
# Calls side by side

A call on frames makes one frame for all parameters, a call on cells a cell for each; in the body both show the same
names. Functions, classes and instances then match if the bodies do.
-/

namespace LoxLang

open Eval

variable {W W₁ : World} {S : Scopes} {m m' : Machine} {pbody cbody : BodyRunner}

/-- Bodies match wherever they stand in a local scope. -/
def BodyRunner.Matches (plain cells : BodyRunner) : Prop :=
  ∀ {W : World} {scope : List String} {S : Scopes} {ss : List (Stmt Hops)} {m m' : Machine},
    m.Mirrors W (scope :: S) m' → Stmt.AllScoped true (scope :: S) ss →
    Runs W (plain ss) (cells (Stmt.erasedAll ss)) (fun _ _ _ => True) m m'

/-! ## Cells for parameters

The frame of a call binds all parameters at once, and the cells are made one by one. So the scope is shown to grow name
by name over a frame that has the names already. -/

/-- A name of the innermost frame gets a cell. -/
theorem Machine.Mirrors.allocCell {scope : List String} {a : Address} {env : Environment} {name : String}
    {v w : Value} (h : m.Mirrors W (scope :: S) m') (henv : m.environment = a :: env)
    (hv : (m.heap.vars a).get? name = some v) (hvw : v.Alike W w) (hfresh : name ∉ scope) :
    ∃ W₁, W.Grows W₁ (some a) ∧ W₁.place a name m'.heap.cells.size ∧
      m.Mirrors W₁ ((name :: scope) :: S)
        { m' with
          heap := (m'.heap.alloc (.frame [(name, w)])).2
          environment := m'.heap.cells.size :: m'.environment } := by
  have hmirrors := h.environment
  rw [henv] at hmirrors
  -- the name is new in its scope, so it has no cell yet
  have hunplaced : ∀ c, ¬ W.place a name c := by
    intro c hp
    exact hfresh (h.own (by rw [henv]; rfl) hp)
  obtain ⟨W₁, hgrows, hp, hnames, halike⟩ := h.alike.heap.allocPlace hmirrors.1 hunplaced hv hvw
  refine ⟨W₁, hgrows, hp, ⟨halike, h.alike.printed, h.alike.readings⟩, ?_, fun {b other c} hb hother => ?_⟩
  · rw [henv]
    exact (hmirrors.mono hgrows).cons hp
  · rw [henv] at hb
    cases hb
    rcases hnames hother with rfl | hold
    · exact List.mem_cons_self
    · exact List.mem_cons_of_mem _ (h.own (by rw [henv]; rfl) hold)

/-- Cells for all parameters. The frame binds them already. -/
theorem Machine.Mirrors.bindAll {a : Address} {env cells : Environment} {params : List Token}
    {vs ws : List Value} (hvw : List.Forall₂ (fun v w => v.Alike W w) vs ws) (hlen : params.length = vs.length)
    {scope : List String}
    (h : Machine.Mirrors W (scope :: S) { m with environment := a :: env } { m' with environment := cells })
    (hbound : ∀ p ∈ params.zip vs, (m.heap.vars a).get? p.1.lexeme = some p.2)
    (hnodup : (params.map (·.lexeme)).Nodup) (hfresh : ∀ p ∈ params, p.lexeme ∉ scope) :
    ∃ W₁ heap cells₁, Cells.bindAll params ws cells m' = (.ok cells₁, { m' with heap }) ∧
      W.Grows W₁ (some a) ∧
      Machine.Mirrors W₁ (((params.map (·.lexeme)).reverse ++ scope) :: S) { m with environment := a :: env }
        { m' with heap, environment := cells₁ } := by
  induction params generalizing W vs ws scope m' cells with
  | nil =>
    obtain rfl := List.eq_nil_of_length_eq_zero hlen.symm
    cases hvw
    exact ⟨W, m'.heap, cells, rfl, .refl W _, h⟩
  | cons p ps ih =>
    cases hvw with
    | nil => cases hlen
    | @cons v w vs ws hv hrest =>
      rw [List.map_cons, List.nodup_cons] at hnodup
      obtain ⟨hp, hnodup⟩ := hnodup
      have hpbound : (m.heap.vars a).get? p.lexeme = some v := hbound (p, v) List.mem_cons_self
      obtain ⟨W₁, hgrows, -, h₁⟩ := h.allocCell rfl hpbound hv (hfresh p List.mem_cons_self)
      have hfresh' : ∀ q ∈ ps, q.lexeme ∉ p.lexeme :: scope := by
        intro q hq hmem
        rcases List.mem_cons.mp hmem with heq | hmem
        · exact hp (heq ▸ List.mem_map_of_mem hq)
        · exact hfresh q (List.mem_cons_of_mem p hq) hmem
      have hrest' : List.Forall₂ (fun v w => Value.Alike W₁ v w) vs ws := hrest.imp fun _ _ hvw => hvw.mono hgrows
      -- The first parameter has its cell; the others get theirs behind it.
      let m₁' : Machine := { m' with heap := (m'.heap.alloc (.frame [(p.lexeme, w)])).2 }
      have h₁' : Machine.Mirrors W₁ ((p.lexeme :: scope) :: S) { m with environment := a :: env }
          { m₁' with environment := m'.heap.cells.size :: cells } := h₁
      obtain ⟨W₂, heap, cells₂, hrun, hgrows₂, h₂⟩ := ih hrest' (Nat.succ.inj hlen) h₁'
        (fun q hq => hbound q (List.mem_cons_of_mem _ hq)) hnodup hfresh'
      refine ⟨W₂, heap, cells₂, hrun, hgrows.trans hgrows₂, ?_⟩
      rw [List.map_cons, List.reverse_cons, List.append_assoc]
      exact h₂

/-! ## Functions

The body is run in an environment that is extended by the parameters, and it comes back as every run does. -/

namespace Closure

/-- Both sides allocate an identity for the function. -/
theorem create_matches (h : m.Alike W m') {env cells : Environment} (henv : Environment.Mirrors W S env cells)
    (d : FunDecl Hops) (b : Bool) :
    Eval.Matches W (create d env b) (create d.erased cells b)
      (fun W₁ f g => f.Alike W₁ S g ∧ f.declaration = d ∧ f.isInitializer = b) m m' := by
  refine (Matches.allocTwin h .identity).bind fun W₁ n n' address address' hpass htwin => ?_
  exact .pure hpass.alike ⟨⟨htwin, rfl, henv.mono hpass.grows, rfl⟩, rfl, rfl⟩

/-- Methods are bound to `this` in a frame, and in a cell. -/
theorem bind_matches (h : m.Alike W m') {f g : Closure} (hfg : f.AlikeMethods W g) {v w : Value}
    (hvw : v.Alike W w) :
    Eval.Matches W (f.bind v) (g.bind w)
      (fun W₁ f' g' => f'.AlikeFunctions W₁ g' ∧ f'.declaration = f.declaration) m m' := by
  obtain ⟨S, halike, hscoped⟩ := hfg
  refine (Matches.allocCell h "this" hvw).bind fun W₁ n n' a c hpass ⟨hframe, hp⟩ => ?_
  have henv : Environment.Mirrors W₁ (["this"] :: S) (a :: f.environment) (c :: g.environment) :=
    ((halike.environment.mono hpass.grows).enter hframe).cons hp
  rw [halike.declaration, halike.isInitializer]
  refine (create_matches hpass.alike henv f.declaration f.isInitializer).mono ?_
  rintro W₂ f' g' - ⟨halike', hdeclaration, -⟩
  exact ⟨⟨_, halike', hdeclaration ▸ hscoped, fun _ => ⟨S, rfl⟩⟩, hdeclaration⟩

/-- Calls with as many arguments as there are parameters. -/
theorem call_matches (hbody : BodyRunner.Matches pbody cbody) (h : m.Alike W m') {f g : Closure}
    (hfg : f.AlikeFunctions W g) {vs ws : List Value} (hvw : List.Forall₂ (fun v w => v.Alike W w) vs ws)
    (hlen : vs.length = f.arity) :
    Eval.Matches W (f.call pbody vs) (Cells.call cbody g ws) (fun W v w => v.Alike W w) m m' := by
  obtain ⟨S, ⟨-, hdeclaration, henv, hinitializer⟩, hscoped, hthis⟩ := hfg
  obtain ⟨address, ⟨name, params, body⟩, environment, isInitializer⟩ := f
  obtain ⟨address', declaration', cells, isInitializer'⟩ := g
  dsimp only at hdeclaration henv hinitializer
  subst hdeclaration hinitializer
  obtain ⟨hnodup, -, hbodyScoped⟩ := hscoped
  obtain ⟨hframe, hnew⟩ := h.heap.allocFrame (Bindings.ofLists (params.map (·.lexeme)) vs)
  have hgrows := W.grows_addFrame (a := m.heap.cells.size) (some m.heap.cells.size)
  have hmirrors : Machine.Mirrors (W.addFrame m.heap.cells.size) ([] :: S)
      { m with
        heap := (m.heap.alloc (.frame (Bindings.ofLists (params.map (·.lexeme)) vs))).2
        environment := m.heap.cells.size :: environment }
      { m' with environment := cells } := by
    refine ⟨⟨hframe, h.printed, h.readings⟩, (henv.mono hgrows).enter (Or.inl rfl), fun {a _ _} ha hp => ?_⟩
    cases ha
    exact absurd (W.frame_of_place hp) hnew
  -- the one frame of the plain run has all arguments at once; the cells get them one by one
  have hbound : ∀ p ∈ params.zip vs,
      ((m.heap.alloc (.frame (Bindings.ofLists (params.map (·.lexeme)) vs))).2.vars m.heap.cells.size).get?
        p.1.lexeme = some p.2 := by
    intro p hp
    rw [Heap.vars_alloc, if_pos rfl]
    refine Bindings.get?_ofLists_of_mem hnodup ?_
    rw [List.zip_map_left]
    exact List.mem_map.mpr ⟨p, hp, rfl⟩
  have hlen' : params.length = vs.length := hlen.symm
  have hvw' : List.Forall₂ (fun v w => Value.Alike (W.addFrame m.heap.cells.size) v w) vs ws :=
    hvw.imp fun _ _ hv => hv.mono hgrows
  obtain ⟨W₁, heap, cells₁, hrun, hgrows₁, hmirrors₁⟩ := Machine.Mirrors.bindAll
    (m := { m with heap := (m.heap.alloc (.frame (Bindings.ofLists (params.map (·.lexeme)) vs))).2 })
    hvw' hlen' hmirrors hbound hnodup fun p hp hmem => (List.not_mem_nil hmem).elim
  rw [List.append_nil] at hmirrors₁
  refine Matches.step rfl hrun rfl rfl ?_
  refine ((hbody hmirrors₁ hbodyScoped).within hnew (hgrows.trans hgrows₁)).bind
    fun W₂ n n' c d hpass hcd => ?_
  cases isInitializer' with
  | true =>
    -- an initializer answers with `this`, which is the innermost scope around the function
    obtain ⟨S', rfl⟩ := hthis rfl
    have hinnermost : Scopes.hops (["this"] :: S') "this" = some 0 := rfl
    exact Matches.valueOf hpass.alike (henv.mono hpass.grows) hinnermost
  | false =>
    cases hcd with
    | completed => exact .pure hpass.alike .nil
    | returning hvw => exact .pure hpass.alike hvw

end Closure

/-! ## Classes and instances

An instance has an identity and fields on either side. Methods are bound by a frame for `this`, or by a cell for it. -/

/-- A new instance on both sides, and its initializer called with as many arguments as it takes. -/
theorem Class.instantiate_matches (hbody : BodyRunner.Matches pbody cbody) (h : m.Alike W m') {c d : Class}
    (hcd : c.Alike W d) {vs ws : List Value} (hvw : List.Forall₂ (fun v w => v.Alike W w) vs ws)
    (hlen : vs.length = c.arity) :
    Eval.Matches W (c.instantiate pbody vs) (Cells.instantiate cbody d ws) (fun W v w => v.Alike W w) m m' := by
  have hfields : Cell.Alike W (.fields []) (.fields []) := .fields fun _ => .none
  refine (Matches.allocTwin h hfields).bind fun W₁ n n' b b' hpass htwin => ?_
  have hinit := hcd.findMethod? "init"
  have hobject : Value.Alike W₁ (.object ⟨b, c⟩) (.object ⟨b', d⟩) := .object htwin (hcd.mono hpass.grows)
  have hlen' : ∀ f, c.findMethod? "init" = some f → vs.length = f.arity := by
    intro f hf
    rw [hlen, Class.arity, Class.initializer?, hf]
    rfl
  dsimp only
  unfold Class.initializer?
  revert hinit hlen'
  -- an initializer is found on both sides or on none
  cases c.findMethod? "init" <;> cases d.findMethod? "init" <;> intro hinit hlen' <;> cases hinit
  · exact .pure hpass.alike hobject
  · next f g hfg =>
    refine (Closure.bind_matches hpass.alike (hfg.mono hpass.grows) hobject).bind
      fun W₂ o o' f' g' hpass₂ ⟨hf', hdeclaration⟩ => ?_
    have harity : vs.length = f'.arity := by
      rw [hlen' f rfl, Closure.arity, Closure.arity, hdeclaration]
    have hgrows := hpass.grows.trans hpass₂.grows
    refine (Closure.call_matches hbody hpass₂.alike hf' (hvw.imp fun _ _ hv => hv.mono hgrows) harity).bind
      fun W₃ q q' _ _ hpass₃ _ => ?_
    exact .pure hpass₃.alike (hobject.mono (hpass₂.grows.trans hpass₃.grows))

/-- A field, a method that is bound, or neither. -/
theorem Instance.get_matches (h : m.Alike W m') {i j : Instance} (haddress : W.twin i.address j.address)
    (horigin : i.origin.Alike W j.origin) (name : Token) :
    Eval.Matches W (i.get name) (j.get name) (fun W v w => v.Alike W w) m m' := by
  refine Matches.get ?_
  have hfield := h.heap.fields haddress name.lexeme
  revert hfield
  cases (m.heap.fields i.address).get? name.lexeme <;>
    cases (m'.heap.fields j.address).get? name.lexeme <;> intro hfield <;> cases hfield
  · dsimp only
    have hmethod := horigin.findMethod? name.lexeme
    revert hmethod
    cases i.origin.findMethod? name.lexeme <;> cases j.origin.findMethod? name.lexeme <;>
      intro hmethod <;> cases hmethod
    · exact .fail h _ _
    · next hfg =>
      exact (Closure.bind_matches h hfg (.object haddress horigin)).bind
        fun _ _ _ _ _ hpass hbound => .pure hpass.alike (.function hbound.1)
  · next hvw => exact .pure h hvw

/-- Calls with as many arguments as the value takes. -/
theorem Value.call_matches (settings : Settings) (hbody : BodyRunner.Matches pbody cbody) (h : m.Alike W m')
    {callee callee' : Value} (hcallee : callee.Alike W callee') {vs ws : List Value}
    (hvw : List.Forall₂ (fun v w => v.Alike W w) vs ws) (harity : callee.arity? = some vs.length) :
    Eval.Matches W (callee.call settings pbody vs) (Cells.callValue settings cbody ws callee')
      (fun W v w => v.Alike W w) m m' := by
  cases hcallee with
  | function hfg => exact Closure.call_matches hbody h hfg hvw (Option.some.inj harity).symm
  | clock => exact .readClock h settings
  | classValue hcd => exact Class.instantiate_matches hbody h hcd hvw (Option.some.inj harity).symm
  | _ => cases harity

/-- Both sides check the same before they call. -/
theorem Runner.call_matches (settings : Settings) {plain cells : Runner}
    (hbody : BodyRunner.Matches plain.executeAll cells.executeAll) (h : m.Alike W m') (paren : Token)
    {callee callee' : Value} (hcallee : callee.Alike W callee') {vs ws : List Value}
    (hvw : List.Forall₂ (fun v w => v.Alike W w) vs ws) :
    Eval.Matches W (plain.call settings paren callee vs) (Cells.checkedCall settings cells paren callee' ws)
      (fun W v w => v.Alike W w) m m' := by
  unfold Runner.call Cells.checkedCall
  rw [hcallee.arity?_eq, ← hvw.length_eq]
  cases harity : callee.arity? with
  | none => exact .fail h _ _
  | some n =>
    dsimp only
    by_cases hn : vs.length = n
    · rw [if_pos hn, if_pos hn]
      rw [← hn] at harity
      exact (Value.call_matches settings hbody h hcallee hvw harity).overflowAt
    · rw [if_neg hn, if_neg hn]
      exact .fail h _ _

end LoxLang
