import LoxLang.Proofs.Receiver.Following

/-!
# The rules at home

* **`HomeRunner.evaluateNode_follows`**, **`HomeRunner.executeNode_follows`** — the rules at home follow the plain ones
  if the runs of the parts do.
* **`nested_follows`** — so do all runs at every depth of nesting.

Class declarations are where a home comes from. That their methods see the class of their home through the frame of
`super`, and no other class through one further out, is a matter of the scopes: a statement never stands in the scope
of a class itself.
-/

namespace LoxLang

open Homed

/-- What a completion returns. -/
def Housing.HoldsResult (x : Housing) : Completion → Prop
  | .completed => True
  | .returning v => x.Holds v

/-- A runner at home follows a plain one wherever a tree fits the scopes of the home. A statement does not stand
between a class and its methods. -/
structure HomeRunner.Follows (run : HomeRunner) (plain : Runner) : Prop where
  evaluate : ∀ {e : Expr Hops} {S : Scopes} {pending : Option String} {home : Home} {x : Housing}, x.At home S →
    e.Scoped false S pending → (run.evaluate home e).Follows (plain.evaluate e) Housing.Holds x
  execute : ∀ {s : Stmt Hops} {S : Scopes} {home : Home} {x : Housing}, x.At home S → S.Fresh "super" →
    s.Scoped false S → (run.execute home s).Follows (plain.execute s) Housing.HoldsResult x

/-! ## Scopes of statements

That no statement stands in the scope of `super` itself: between that scope and the statement there is always the scope
of `this`. -/

/-- No declaration has one of the words for its name. -/
theorem Stmt.Scoped.declared_not_isWord {S : Scopes} {s : Stmt Hops} (hscoped : s.Scoped false S) :
    ∀ name ∈ s.declared, ¬ IsWord name := by
  intro name hname
  cases s with
  | function declaration =>
    obtain rfl := List.mem_singleton.mp hname
    exact hscoped.2.1.not_isWord
  | «class» =>
    obtain rfl := List.mem_singleton.mp hname
    exact hscoped.2.1.not_isWord
  | var =>
    obtain rfl := List.mem_singleton.mp hname
    exact hscoped.2.1.not_isWord
  | «if» condition thenBranch elseBranch =>
    -- branches declare nothing
    cases elseBranch with
    | none =>
      obtain ⟨-, ⟨hdeclared, -⟩, -⟩ := hscoped
      rw [Stmt.declared, hdeclared] at hname
      cases hname
    | some s =>
      obtain ⟨-, ⟨hdeclared, -⟩, hdeclared', -⟩ := hscoped
      rw [Stmt.declared, hdeclared, hdeclared'] at hname
      cases hname
  | «while» condition body =>
    rw [Stmt.declared, hscoped.2.1] at hname
    cases hname
  | block | expression | print | «return» | unknown => cases hname

/-- Other names do not make a name less new. -/
theorem Scopes.Fresh.declare {S : Scopes} {names : List String} {name : String} (h : S.Fresh name)
    (hnames : name ∉ names) : (S.declare names).Fresh name := by
  cases S with
  | nil => exact h
  | cons scope S =>
    intro hmem
    exact (List.mem_append.mp hmem).elim hnames h

/-- The words of a fresh scope lie further out. -/
theorem Scopes.Fresh.hops_ne_zero {S : Scopes} {name : String} (h : S.Fresh name) : S.hops name ≠ some 0 := by
  intro hhops
  obtain ⟨scope, hscope, hmem⟩ := Scopes.getElem?_of_hops hhops
  cases S with
  | nil => cases hscope
  | cons inner S =>
    cases hscope
    exact h hmem

namespace HomeRunner

variable {run : HomeRunner} {plain : Runner} {x : Housing} {home : Home} {S : Scopes}

/-! ## Functions and classes

The rules in which homes matter. Everywhere else a run at home passes its home on. -/

/-- The instance of a home is the one that the frame of `this` binds. -/
theorem this_follows (hhoused : x.1.heap.Housed x.2) {env : Environment} (hfits : home.Fits x.1.heap env S) {n : Nat}
    (hthis : S.hops "this" = some n) : home.this.Follows (Eval.readAt env n "this") Housing.Holds x := by
  obtain ⟨i, hi, hshows⟩ := hfits.this hthis
  have hhome : home.this = Pure.pure (.object i) := by
    unfold Home.this
    rw [hi]
  rw [hhome]
  refine Follows.congr rfl hshows.readAt (Follows.pure hhoused ?_)
  obtain ⟨a, -, hv⟩ := hshows
  exact hhoused.vars hv

/-- The home tells the instance and the superclass, and the frames at the two distances show the same. -/
theorem superMethod_follows (h : x.At home S) {keyword : Reference Hops} {n : Nat}
    (hnote : keyword.note = some (n + 1)) (hsuper : S.hops "super" = some (n + 1))
    (hthis : S.hops "this" = some n) (method : Token) :
    (home.superMethod method).Follows (Runner.superMethod keyword method) Housing.Holds x := by
  obtain ⟨i, hi, hshows⟩ := h.fits.this hthis
  obtain ⟨c, hc, hshows'⟩ := h.fits.super hthis hsuper
  -- both frames show what the home has, so that both runs go on with the same class and the same instance
  have hplain : Runner.superMethod keyword method x.1
      = ((c.findMethod? method.lexeme).elim (Eval.fail (.undefinedProperty method.lexeme) method)
          fun f => .function <$> f.bind (.object i) : Eval Value) x.1 := by
    unfold Runner.superMethod
    rw [hnote]
    dsimp only
    rw [Eval.get_bind, Eval.bind_apply, hshows'.readAt]
    dsimp only
    rw [Eval.bind_apply, Nat.add_sub_cancel, hshows.readAt]
    dsimp only
    cases c.findMethod? method.lexeme <;> rfl
  refine Follows.congr rfl hplain ?_
  unfold Home.superMethod
  rw [hc, hi]
  obtain ⟨a, -, ha⟩ := hshows
  obtain ⟨b, -, hb⟩ := hshows'
  have hclass : c.Housed x.1.heap x.2 := h.housed.vars hb
  have hinstance : x.Holds (.object i) := h.housed.vars ha
  dsimp only
  cases hmethod : c.findMethod? method.lexeme with
  | none => exact .fail h.housed _ _
  | some f => exact (Follows.forInstance h.housed (hclass.findMethod? hmethod) hinstance).map fun _ _ _ hg => hg

/-- A field of the instance, or a method that gets a home at it. -/
theorem property_follows (hhoused : x.1.heap.Housed x.2) {i : Instance} (hi : x.Holds (.object i)) (name : Token)
    : (Home.property i name).Follows (i.get name) Housing.Holds x := by
  refine Follows.get ?_
  cases hfield : (x.1.heap.fields i.address).get? name.lexeme with
  | some v => exact .pure hhoused (hhoused.fields hfield)
  | none =>
    dsimp only
    cases hmethod : i.origin.findMethod? name.lexeme with
    | none => exact .fail hhoused _ _
    | some f => exact (Follows.forInstance hhoused (hi.2.findMethod? hmethod) hi).map fun _ _ _ hg => hg

/-- Every method gets the superclass of the declaration for its home, without an instance. -/
theorem createMethods_follows {parent : Option Class} {env : Environment} {ds : List (FunDecl Hops)}
    {methods : Bindings Closure} (hhoused : x.1.heap.Housed x.2)
    (hparent : S.hops "super" = some 0 → ∃ c, parent = some c ∧ env.Shows x.1.heap 0 "super" (.classValue c))
    (hscoped : FunDecl.AllScoped false (["this"] :: S) ds)
    (hmethods : ∀ name f, methods.get? name = some f → f.IsHousedMethod x.1.heap x.2 name) :
    (Home.createMethods ⟨none, parent⟩ env ds methods).Follows (Runner.createMethods env ds methods)
      (fun x' methods => ∀ name f, methods.get? name = some f → f.IsHousedMethod x'.1.heap x'.2 name) x := by
  -- the induction is on the methods that are left; those before are housed already
  induction ds generalizing x methods with
  | nil => exact .pure hhoused hmethods
  | cons d ds ih =>
    obtain ⟨hd, hds⟩ := hscoped
    refine (Follows.create hhoused ⟨none, parent⟩ d env _).bind
      fun f x₁ hlead ⟨haddress, hhome, hdeclaration, henvironment, hinitializer⟩ => ?_
    have hparent₁ : S.hops "super" = some 0 →
        ∃ c, parent = some c ∧ env.Shows x₁.1.heap 0 "super" (.classValue c) := by
      intro hsuper
      obtain ⟨c, hc, hshows⟩ := hparent hsuper
      exact ⟨c, hc, hshows.mono (.inr rfl) hlead.tends⟩
    refine ih hlead.housed hparent₁ hds fun name g hg => ?_
    rw [Bindings.get?_put] at hg
    split at hg
    · next hname =>
      cases hg
      refine ⟨haddress, by rw [hinitializer, hname], S, by rwa [hdeclaration], fun hsuper => ?_⟩
      rw [hhome, henvironment]
      exact hparent₁ hsuper
    · exact (hmethods name g hg).mono hlead.tends

/-- The superclass is a class or there is a mistake, on both sides. -/
theorem parentOf_follows (hhoused : x.1.heap.Housed x.2) (heritage : Option (Reference Hops)) :
    (lift (Runner.parentOf heritage)).Follows (Runner.parentOf heritage)
      (fun x' parent => parent.isSome = heritage.isSome ∧ ∀ c ∈ parent, c.Housed x'.1.heap x'.2) x := by
  cases heritage with
  | none => exact Follows.lift_pure hhoused ⟨rfl, fun _ hc => by cases hc⟩
  | some reference =>
    refine Follows.lift_map (P := fun x' c => c.Housed x'.1.heap x'.2) ?_ fun c x' _ hc => ⟨rfl, fun c' hc' => ?_⟩
    · refine (Follows.lookUp hhoused reference).lift_bind fun v x₁ hlead hv => ?_
      cases v with
      | classValue c => exact .lift_pure hlead.housed hv
      | _ => exact .fail hlead.housed _ _
    · cases hc'
      exact hc

/-- The methods of a subclass see a frame that binds `super` to the class of their home. -/
theorem methodScope_follows (hhoused : x.1.heap.Housed x.2) (env : Environment) {parent : Option Class}
    (hparent : ∀ c ∈ parent, c.Housed x.1.heap x.2) :
    (lift (Runner.methodScope env parent)).Follows (Runner.methodScope env parent)
      (fun x' inner => ∀ c ∈ parent, inner.Shows x'.1.heap 0 "super" (.classValue c)) x := by
  cases parent with
  | none => exact Follows.lift_pure hhoused fun _ hc => by cases hc
  | some c =>
    have hbinding : ∀ name v, Bindings.get? [("super", Value.classValue c)] name = some v → x.Holds v := by
      intro name v hv
      rw [Bindings.get?_singleton] at hv
      split at hv
      · cases hv
        exact hparent c rfl
      · cases hv
    refine (Follows.allocFrame hhoused hbinding).lift_map fun a x' _ hframe c' hc' => ?_
    cases hc'
    exact ⟨a, rfl, hframe _ _ rfl⟩

/-- The frame of `super` shows the class that the home of the methods says. -/
theorem declareClass_follows (h : x.At home S) (hfresh : S.Fresh "super") {name : Token}
    {heritage : Option (Reference Hops)} {methods : List (FunDecl Hops)}
    (hscoped : (Stmt.class name heritage methods).Scoped false S) :
    (Home.declareClass name heritage methods).Follows (Runner.declareClass name heritage methods)
      (fun _ _ => True) x := by
  obtain ⟨-, hname, hmethods⟩ := hscoped
  -- the scopes of the methods, apart from that of `this`
  obtain ⟨S', hmethods, hS'⟩ : ∃ S' : Scopes, FunDecl.AllScoped false (["this"] :: S') methods ∧
      (S'.hops "super" = some 0 → heritage.isSome) := by
    cases heritage with
    | none =>
      refine ⟨S.declare [name.lexeme], hmethods, fun hsuper => ?_⟩
      exact absurd hsuper (hfresh.declare fun hmem => hname.2 (List.mem_singleton.mp hmem).symm).hops_ne_zero
    | some reference => exact ⟨["super"] :: S.declare [name.lexeme], hmethods.2, fun _ => rfl⟩
  rw [Runner.declareClass_eq]
  refine (parentOf_follows h.housed heritage).bind fun parent x₁ hlead₁ ⟨hsome, hparent⟩ => ?_
  have hnil : x₁.Holds .nil := trivial
  refine (Follows.declare hlead₁.housed hname.not_isWord hnil).bind fun _ x₂ hlead₂ _ => Follows.get ?_
  have hparent₂ : ∀ c ∈ parent, c.Housed x₂.1.heap x₂.2 := fun c hc => (hparent c hc).mono hlead₂.tends
  refine (methodScope_follows hlead₂.housed x₂.1.environment hparent₂).bind fun inner x₃ hlead₃ hinner => ?_
  have hsuper : S'.hops "super" = some 0 →
      ∃ c, parent = some c ∧ inner.Shows x₃.1.heap 0 "super" (.classValue c) := by
    intro hhops
    obtain ⟨c, hc⟩ := Option.isSome_iff_exists.mp (hsome.trans (hS' hhops))
    exact ⟨c, hc, hinner c hc⟩
  refine (createMethods_follows hlead₃.housed hsuper hmethods fun _ _ hf => by cases hf).bind
    fun made x₄ hlead₄ hmade => ?_
  refine (Follows.alloc hlead₄.housed (.inr rfl)).lift_bind fun address x₅ hlead₅ _ => ?_
  refine Follows.assign hlead₅.housed _ hname.not_isWord (Class.Housed.extend ?_ fun c hc => ?_)
  · exact fun n f hf => (hmade n f hf).mono hlead₅.tends
  · exact (hparent₂ c hc).mono (hlead₃.tends.trans (hlead₄.tends.trans hlead₅.tends))

variable (hrun : run.Follows plain)
include hrun

/-! ## Calls

A call changes the home to that of the function, and back afterwards. -/

/-- Statements in succession, each in the scopes that those before it have declared. -/
theorem executeAll_follows {ss : List (Stmt Hops)} (h : x.At home S) (hfresh : S.Fresh "super")
    (hscoped : Stmt.AllScoped false S ss) :
    (run.executeAll home ss).Follows (plain.executeAll ss) Housing.HoldsResult x := by
  induction ss generalizing S x with
  | nil => exact .pure h.housed trivial
  | cons s ss ih =>
    obtain ⟨hs, hss⟩ := hscoped
    have hnames := hs.declared_not_isWord
    refine (hrun.execute h hfresh hs).bind fun completion x₁ hlead hcompletion => ?_
    cases completion with
    | returning v => exact .pure hlead.housed hcompletion
    | completed =>
      exact ih ((h.lead hlead).declare hnames) (hfresh.declare fun hmem => hnames _ hmem (.inr rfl)) hss

/-- The body runs at the home of the function, which fits the environment of the function and still fits behind its
parameters. -/
theorem activate_follows (hhoused : x.1.heap.Housed x.2) {f : Closure} (hf : f.Housed x.1.heap x.2)
    {arguments : List Value} (harguments : ∀ v ∈ arguments, x.Holds v) :
    (run.activate f arguments).Follows (f.call plain.executeAll arguments) Housing.Holds x := by
  obtain ⟨-, S, hscoped, hfits, hthis⟩ := hf
  obtain ⟨address, ⟨name, params, body⟩, environment, isInitializer⟩ := f
  obtain ⟨-, hparams, hbody⟩ := hscoped
  -- parameters are names, not the words `this` and `super`, so that they hide neither
  have hnames : ∀ name ∈ (params.map (·.lexeme)).reverse, ¬ IsWord name := by
    intro name hname
    obtain ⟨p, hp, rfl⟩ := List.mem_map.mp (List.mem_reverse.mp hname)
    exact (hparams p hp).not_isWord
  have hvars : ∀ name v, (Bindings.ofLists (params.map (·.lexeme)) arguments).get? name = some v → x.Holds v :=
    fun name v hv => harguments v (Bindings.mem_of_get?_ofLists hv).2
  refine Follows.homeOf ((Follows.allocFrame hhoused hvars).bind fun frame x₁ hlead₁ _ => ?_)
  have hat := Housing.At.enter hlead₁.housed (hfits.mono hlead₁.tends) hnames frame
  have hrest := executeAll_follows hrun hat (fun hmem => hnames _ hmem (.inr rfl)) hbody
  refine (hrest.within fun _ _ completion hc => by cases completion <;> exact hc).bind
    fun completion x₂ hlead₂ hcompletion => ?_
  cases isInitializer with
  | true =>
    exact this_follows hlead₂.housed (hfits.mono (hlead₁.tends.trans hlead₂.tends)) (hthis rfl)
  | false =>
    cases completion with
    | returning v => exact .pure hlead₂.housed hcompletion
    | completed => exact .pure hlead₂.housed trivial

/-- The new instance is of a class with homes, and so the initializer gets a home at it. -/
theorem instantiate_follows (hhoused : x.1.heap.Housed x.2) {c : Class} (hc : c.Housed x.1.heap x.2)
    {arguments : List Value} (harguments : ∀ v ∈ arguments, x.Holds v) :
    (run.instantiate c arguments).Follows (c.instantiate plain.executeAll arguments) Housing.Holds x := by
  refine (Follows.alloc hhoused (.inl rfl)).bind fun address x₁ hlead₁ haddress => ?_
  dsimp only
  have hi : x₁.Holds (.object ⟨address, c⟩) := ⟨haddress.2, hc.mono hlead₁.tends⟩
  cases hinit : c.initializer? with
  | none => exact .pure hlead₁.housed hi
  | some f =>
    have hbind := Follows.forInstance hlead₁.housed (hi.2.findMethod? hinit) hi
    refine hbind.bind fun g x₂ hlead₂ hg => ?_
    have htends := hlead₁.tends.trans hlead₂.tends
    refine (activate_follows hrun hlead₂.housed hg fun v hv => (harguments v hv).mono htends).bind
      fun _ x₃ hlead₃ _ => ?_
    exact .pure hlead₃.housed (hi.mono (hlead₂.tends.trans hlead₃.tends))

theorem callValue_follows (settings : Settings) (hhoused : x.1.heap.Housed x.2) {callee : Value}
    (hcallee : x.Holds callee) {arguments : List Value} (harguments : ∀ v ∈ arguments, x.Holds v) :
    (run.callValue settings arguments callee).Follows (callee.call settings plain.executeAll arguments)
      Housing.Holds x := by
  cases callee with
  | function f => exact activate_follows hrun hhoused hcallee harguments
  | clock => exact .readClock hhoused settings
  | classValue c => exact instantiate_follows hrun hhoused hcallee harguments
  | nil | bool | number | string | object => exact .stop hhoused _

/-- Both sides check the same before they call. -/
theorem call_follows (settings : Settings) (hhoused : x.1.heap.Housed x.2) (paren : Token) {callee : Value}
    (hcallee : x.Holds callee) {arguments : List Value} (harguments : ∀ v ∈ arguments, x.Holds v) :
    (run.call settings paren callee arguments).Follows (plain.call settings paren callee arguments)
      Housing.Holds x := by
  unfold call Runner.call
  cases callee.arity? with
  | none => exact .fail hhoused _ _
  | some arity =>
    dsimp only
    split
    · exact (callValue_follows hrun settings hhoused hcallee harguments).overflowAt
    · exact .fail hhoused _ _

/-! ## Expressions

One case for each form; only `this`, `super` and calls have to do with homes. -/

theorem evaluateAll_follows {pending : Option String} {es : List (Expr Hops)} (h : x.At home S)
    (hscoped : Expr.Scoped.all false S pending es) :
    (run.evaluateAll home es).Follows (plain.evaluateAll es) (fun x' vs => ∀ v ∈ vs, x'.Holds v) x := by
  induction es generalizing x with
  | nil => exact .pure h.housed fun _ hv => by cases hv
  | cons e es ih =>
    obtain ⟨he, hes⟩ := hscoped
    refine (hrun.evaluate h he).bind fun v x₁ hlead₁ hv => ?_
    refine (ih (h.lead hlead₁) hes).bind fun vs x₂ hlead₂ hvs => .pure hlead₂.housed ?_
    exact List.forall_mem_cons.mpr ⟨hv.mono hlead₂.tends, hvs⟩

theorem evaluateOption_follows {pending : Option String} {e? : Option (Expr Hops)} (h : x.At home S)
    (hscoped : Expr.OptionScoped false S pending e?) :
    (run.evaluateOption home e?).Follows (plain.evaluateOption e?) Housing.Holds x := by
  cases e? with
  | none => exact .pure h.housed trivial
  | some e => exact hrun.evaluate h hscoped

/-- An expression at home does what it does anyway, if its parts do. The postcondition is that functions in the result
have homes. -/
theorem evaluateNode_follows (settings : Settings) {pending : Option String} {e : Expr Hops} (h : x.At home S)
    (hscoped : e.Scoped false S pending) :
    (run.evaluateNode settings home e).Follows (plain.evaluateNode settings e) Housing.Holds x := by
  -- the plan is the same for most forms: the parts follow by assumption, each from where the last one led to, and the
  -- rule itself makes no function, so that it is lifted; `super`, `this`, properties and calls have lemmas of their
  -- own above, as there the home and the frames have to agree
  cases e with
  | assign target value =>
    obtain ⟨-, hname, -, hvalue⟩ := hscoped
    refine (hrun.evaluate h hvalue).bind fun v x₁ hlead₁ hv => ?_
    exact (Follows.assignTo hlead₁.housed hname hv).bind
      fun _ x₂ hlead₂ _ => .pure hlead₂.housed (hv.mono hlead₂.tends)
  | binary left operator right =>
    obtain ⟨hleft, -, hright⟩ := hscoped
    refine (hrun.evaluate h hleft).bind fun l x₁ hlead₁ _ => ?_
    exact (hrun.evaluate (h.lead hlead₁) hright).bind
      fun r x₂ hlead₂ _ => .still hlead₂.housed (Eval.binary_still operator l r)
  | call callee paren arguments =>
    obtain ⟨hcallee, harguments⟩ := hscoped
    refine (hrun.evaluate h hcallee).bind fun f x₁ hlead₁ hf => ?_
    exact (evaluateAll_follows hrun (h.lead hlead₁) harguments).bind
      fun vs x₂ hlead₂ hvs => call_follows hrun settings hlead₂.housed paren (hf.mono hlead₂.tends) hvs
  | get object name =>
    refine (hrun.evaluate (e := object) h hscoped).bind fun o x₁ hlead₁ ho => ?_
    cases o with
    | object i => exact property_follows hlead₁.housed ho name
    | _ => exact .fail hlead₁.housed _ _
  | grouping inner => exact hrun.evaluate (e := inner) h hscoped
  | literal value =>
    refine .pure h.housed ?_
    cases value <;> trivial
  | logical left operator right =>
    obtain ⟨hleft, hright⟩ := hscoped
    refine (hrun.evaluate h hleft).bind fun l x₁ hlead₁ hl => ?_
    split
    · exact .pure hlead₁.housed hl
    · exact hrun.evaluate (h.lead hlead₁) hright
  | set object name value =>
    obtain ⟨hobject, hvalue⟩ := hscoped
    refine (hrun.evaluate h hobject).bind fun o x₁ hlead₁ _ => ?_
    cases o with
    | object i =>
      refine (hrun.evaluate (h.lead hlead₁) hvalue).bind fun v x₂ hlead₂ hv => ?_
      exact (Follows.setField hlead₂.housed hv i.address name.lexeme).bind
        fun _ x₃ hlead₃ _ => .pure hlead₃.housed (hv.mono hlead₃.tends)
    | _ => exact .fail hlead₁.housed _ _
  | super keyword method =>
    obtain ⟨n, hnote, hsuper, hthis⟩ := hscoped
    exact superMethod_follows h hnote hsuper hthis method
  | this keyword =>
    obtain ⟨hlexeme, n, hnote, hthis⟩ := hscoped
    -- the distance is the one at which the scopes have `this`, where the environment shows the instance of the home
    have hplain : Runner.lookUp keyword x.1 = Eval.readAt x.1.environment n "this" x.1 := by
      unfold Runner.lookUp
      rw [hnote, hlexeme]
      rfl
    exact .congr rfl hplain (this_follows h.housed h.fits hthis)
  | unary operator right =>
    exact (hrun.evaluate h hscoped.2).bind fun r x₁ hlead₁ _ => .still hlead₁.housed (Eval.unary_still operator r)
  | «variable» reference => exact .lookUp h.housed reference
  | unknown => exact hscoped.elim

/-! ## Statements

Declarations change what the following statements see, but they never touch the words of classes. -/

omit hrun in
/-- A loop whose test and body are followed in all machines of a place. -/
theorem repeatWhile_follows {test : Homed Bool} {test' : Eval Bool} {body : Homed Completion}
    {body' : Eval Completion} (htest : ∀ {x : Housing}, x.At home S → test.Follows test' (fun _ _ => True) x)
    (hbody : ∀ {x : Housing}, x.At home S → body.Follows body' Housing.HoldsResult x) (rounds : Nat)
    (h : x.At home S) :
    (repeatWhile test body rounds).Follows (Runner.repeatWhile test' body' rounds) Housing.HoldsResult x := by
  induction rounds generalizing x with
  | zero => exact .stop h.housed _
  | succ rounds ih =>
    refine (htest h).bind fun b x₁ hlead₁ _ => ?_
    cases b with
    | false => exact .pure hlead₁.housed trivial
    | true =>
      refine (hbody (h.lead hlead₁)).bind fun completion x₂ hlead₂ hcompletion => ?_
      cases completion with
      | returning v => exact .pure hlead₂.housed hcompletion
      | completed => exact ih (h.lead (hlead₁.trans hlead₂))

/-- A statement at home does what it does anyway, if its parts do. That no statement stands in the scope of `super`
itself is handed down, since a class declaration needs it. -/
theorem executeNode_follows (settings : Settings) {s : Stmt Hops} (h : x.At home S) (hfresh : S.Fresh "super")
    (hscoped : s.Scoped false S) :
    (run.executeNode settings home s).Follows (plain.executeNode settings s) Housing.HoldsResult x := by
  -- two forms give homes to functions, declarations of functions and of classes; a block opens a frame in which the
  -- home fits as before; all others pass their home on to their parts
  cases s with
  | block body =>
    refine (Follows.allocFrame h.housed fun _ _ hv => by cases hv).bind fun frame x₁ hlead₁ _ => Follows.get ?_
    have hnone : ∀ name ∈ ([] : List String), ¬ IsWord name := List.forall_mem_nil _
    have hat := Housing.At.enter hlead₁.housed (h.lead hlead₁).fits hnone frame
    have hbody := executeAll_follows hrun hat List.not_mem_nil hscoped
    exact hbody.within fun _ _ completion hc => by cases completion <;> exact hc
  | expression value =>
    exact (hrun.evaluate h hscoped).bind fun _ x₁ hlead₁ _ => .pure hlead₁.housed trivial
  | function declaration =>
    obtain ⟨-, hname, hdeclared⟩ := hscoped
    have hnames : ∀ name ∈ [declaration.name.lexeme], ¬ IsWord name := by
      intro name hmem
      rw [List.mem_singleton.mp hmem]
      exact hname.not_isWord
    refine Follows.get ((Follows.create h.housed home declaration x.1.environment false).bind
      fun f x₁ hlead₁ ⟨haddress, hhome, hdeclaration, henvironment, hinitializer⟩ => ?_)
    -- the function is at home here, and its own name does not change what the home says
    have hf : x₁.Holds (.function f) := by
      refine ⟨haddress, _, by rwa [hdeclaration], ?_, by rw [hinitializer]; exact fun hinit => by cases hinit⟩
      rw [hhome, henvironment]
      exact (h.fits.mono hlead₁.tends).declare hnames
    exact (Follows.declare hlead₁.housed hname.not_isWord hf).bind fun _ x₂ hlead₂ _ => .pure hlead₂.housed trivial
  | «class» name heritage methods =>
    exact (declareClass_follows h hfresh hscoped).bind fun _ x₁ hlead₁ _ => .pure hlead₁.housed trivial
  | «if» condition thenBranch elseBranch =>
    cases elseBranch with
    | none =>
      obtain ⟨hcondition, ⟨-, hthen⟩, -⟩ := hscoped
      refine (hrun.evaluate h hcondition).bind fun v x₁ hlead₁ _ => ?_
      split
      · exact hrun.execute (h.lead hlead₁) hfresh hthen
      · exact .pure hlead₁.housed trivial
    | some s =>
      obtain ⟨hcondition, ⟨-, hthen⟩, -, helse⟩ := hscoped
      refine (hrun.evaluate h hcondition).bind fun v x₁ hlead₁ _ => ?_
      split
      · exact hrun.execute (h.lead hlead₁) hfresh hthen
      · exact hrun.execute (h.lead hlead₁) hfresh helse
  | print value =>
    refine (hrun.evaluate h hscoped).bind fun v x₁ hlead₁ _ => ?_
    exact (Follows.print hlead₁.housed v.text).bind fun _ x₂ hlead₂ _ => .pure hlead₂.housed trivial
  | «return» keyword value =>
    exact (evaluateOption_follows hrun h hscoped).bind fun v x₁ hlead₁ hv => .pure hlead₁.housed hv
  | var name initializer =>
    obtain ⟨-, hname, hinitializer⟩ := hscoped
    refine (evaluateOption_follows hrun h hinitializer).bind fun v x₁ hlead₁ hv => ?_
    exact (Follows.declare hlead₁.housed hname.not_isWord hv).bind fun _ x₂ hlead₂ _ => .pure hlead₂.housed trivial
  | «while» condition body =>
    obtain ⟨hcondition, -, hbody⟩ := hscoped
    exact repeatWhile_follows (fun hat => (hrun.evaluate hat hcondition).map fun _ _ _ _ => trivial)
      (fun hat => hrun.execute hat hfresh hbody) settings.rounds h
  | unknown => exact hscoped.elim

end HomeRunner

/-! ## Every depth of nesting

The induction is on the bound; the home is handed to whatever is nested. -/

/-- Where the home fits, the frames of a node confirm it. -/
theorem Home.Fits.confirms {home : Home} {m : Machine} {S : Scopes} {pending : Option String} {e : Expr Hops}
    (hfits : home.Fits m.heap m.environment S) (hscoped : e.Scoped false S pending) : home.confirms m e = true := by
  cases e with
  | this keyword =>
    obtain ⟨-, n, hnote, hthis⟩ := hscoped
    obtain ⟨i, hi, hshows⟩ := hfits.this hthis
    simp only [Home.confirms, hnote, hi, hshows.find?, Option.any_some, Value.equals, beq_self_eq_true]
  | super keyword method =>
    obtain ⟨n, hnote, hsuper, hthis⟩ := hscoped
    obtain ⟨i, hi, hshows⟩ := hfits.this hthis
    obtain ⟨c, hc, hshows'⟩ := hfits.super hthis hsuper
    simp only [Home.confirms, hnote, hc, hi, hshows.find?, hshows'.find?, Option.any_some, Value.equals,
      beq_self_eq_true, Bool.and_self]
  | _ => rfl

/-- By induction on the depth. What the runs at home check besides, that the words are found as the home says, holds
since homes fit. -/
theorem nested_follows (settings : Settings) (n : Nat) :
    HomeRunner.Follows ⟨evaluateAtHome settings n, executeAtHome settings n⟩
      ⟨evaluateNested settings n, executeNested settings n⟩ := by
  induction n with
  | zero => exact ⟨fun h _ => .stop h.housed _, fun h _ _ => .stop h.housed _⟩
  | succ n ih =>
    constructor
    · intro e S pending home x h hscoped
      exact .ensuring (fun m => home.confirms m e) (h.fits.confirms hscoped)
        (HomeRunner.evaluateNode_follows ih settings h hscoped)
    · intro s S home x h hfresh hscoped
      exact HomeRunner.executeNode_follows ih settings h hfresh hscoped

end LoxLang
