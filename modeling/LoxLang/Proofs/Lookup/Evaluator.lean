import LoxLang.Proofs.Lookup.Agreement

/-!
# Every look-up agrees with a search

* **`Runner.evaluateCompared_agrees`**, **`Runner.executeCompared_agrees`** — the rules for expressions and statements
  agree with the search where the tree is steady, if the runs of the parts do.
* **`Settings.comparer_agrees`** — so do runs nested to any depth.

The induction is on the depth of nesting. A call leaves the scopes of its caller: in the frames around the function
all names of their scopes may be bound, and for that its body is steady.

A rule that looks nothing up is put together by `Eval.Agrees.bind` from its parts. Each part gives a machine that the
frames of the place still fit, which is what `Machine.Placed.mono` is for.
-/

namespace LoxLang

open Eval

/-- What is known of a result of statements: a value that is returned is settled. -/
def Completion.Settled (K : Ceilings) (h : Heap) : Completion → Prop
  | .completed => True
  | .returning v => v.Settled K h

/-- What is known after statements: those that complete have declared their names. -/
def Completion.Leaves (K : Ceilings) (h : Heap) (env : Environment) (S T : Scopes) (c : Completion) : Prop :=
  c.Settled K h ∧ (c = .completed → env.Settled K h S T)

/-- A runner that compares and a plain one agree wherever a tree is steady. -/
structure Runner.Agrees (compared plain : Runner) : Prop where
  evaluate : ∀ {e : Expr Hops} {S D T : Scopes} {K : Ceilings} {m : Machine}, m.Placed K S D T → e.Steady S D →
    Eval.Agrees (compared.evaluate e) (plain.evaluate e) [] (fun K h v => v.Settled K h) K m
  execute : ∀ {s : Stmt Hops} {S D T : Scopes} {K : Ceilings} {m : Machine}, m.Placed K S D T → s.Steady S D T →
    m.HasRoom K s.declared →
    Eval.Agrees (compared.execute s) (plain.execute s) s.declared
      (fun K h c => c.Leaves K h m.environment (S.declare s.declared) T) K m

/-- Two ways to run bodies agree wherever a body is steady. -/
def BodyRunner.Agrees (compared plain : BodyRunner) : Prop :=
  ∀ {ss : List (Stmt Hops)} {S D T : Scopes} {K : Ceilings} {m : Machine}, m.Placed K S D T →
    Stmt.AllSteady S D T ss → m.HasRoom K (Stmt.declaredAll ss) →
    Eval.Agrees (compared ss) (plain ss) (Stmt.declaredAll ss) (fun K h c => c.Settled K h) K m

variable {K : Ceilings} {m : Machine} {S D T : Scopes} {compared plain : Runner} {cbody pbody : BodyRunner}

/-! ## Functions, classes and instances

A function is called in the environment it was made in, whose frames are under the ceilings that were known then. Its
body is steady for any frames under these. -/

namespace Closure

/-- To make a function is to allocate. -/
theorem create_agrees (hsettled : m.heap.Settled K) (declaration : FunDecl Hops) (env : Environment) (b : Bool) :
    Eval.Agrees (create declaration env b) (create declaration env b) []
      (fun _ _ f => f.declaration = declaration ∧ f.environment = env) K m :=
  (Agrees.alloc hsettled (.inl rfl)).bind fun _ _ _ hreach _ => .pure hreach.settled ⟨rfl, rfl⟩

/-- A method with a frame for `this` is a function. -/
theorem bind_agrees (hsettled : m.heap.Settled K) {f : Closure} (hf : f.IsSettledMethod K m.heap) {this : Value}
    (hthis : this.Settled K m.heap) :
    Eval.Agrees (f.bind this) (f.bind this) []
      (fun K h g => g.Settled K h ∧ g.declaration = f.declaration) K m := by
  obtain ⟨S, T, henv, hsteady⟩ := hf
  apply (Agrees.allocFrame hsettled henv "this" hthis).bind
  intro frame K₁ m₁ hreach hscopes
  apply (create_agrees hreach.settled f.declaration (frame :: f.environment) f.isInitializer).mono
  rintro K₂ m₂ hreach₂ g ⟨hdeclaration, henvironment⟩
  refine ⟨⟨["this"] :: S, ["this"] :: T, ?_, ?_⟩, hdeclaration⟩
  · rw [henvironment]
    exact hscopes.mono hreach₂.grown
  · rw [hdeclaration]
    exact hsteady

/-- The value of a call whose body has ended. -/
def result (f : Closure) (completion : Completion) : Eval Value :=
  if f.isInitializer then
    Eval.readAt f.environment 0 "this"
  else
    match completion with
    | .returning v => return v
    | .completed => return .nil

/-- A call is a run in a new frame, and a choice of what to give. -/
theorem call_eq (body : BodyRunner) (f : Closure) (arguments : List Value) :
    f.call body arguments
      = Eval.inFrame (Bindings.ofLists (f.declaration.params.map (·.lexeme)) arguments) f.environment
          (body f.declaration.body) >>= f.result := by
  unfold inFrame
  rw [bind_assoc]
  rfl

/-- An initializer gives its instance, other functions what they return. -/
theorem result_agrees (hsettled : m.heap.Settled K) (f : Closure) {completion : Completion}
    (hcompletion : completion.Settled K m.heap) :
    Eval.Agrees (f.result completion) (f.result completion) [] (fun K h v => v.Settled K h) K m := by
  unfold result
  cases f.isInitializer with
  | true => exact .readAt hsettled _ _ _
  | false =>
    cases completion with
    | returning v => exact .pure hsettled hcompletion
    | completed => exact .pure hsettled trivial

/-- A call with as many arguments as there are parameters. -/
theorem call_agrees (hbody : BodyRunner.Agrees cbody pbody) (hsettled : m.heap.Settled K) {f : Closure}
    (hf : f.Settled K m.heap) {arguments : List Value} (harguments : ∀ v ∈ arguments, v.Settled K m.heap)
    (hlen : arguments.length = f.arity) :
    Eval.Agrees (f.call cbody arguments) (f.call pbody arguments) [] (fun K h v => v.Settled K h) K m := by
  obtain ⟨S, T, henv, hsteady⟩ := hf
  obtain ⟨address, ⟨name, params, body⟩, environment, isInitializer⟩ := f
  rw [call_eq, call_eq]
  have hlen' : arguments.length = (params.map (·.lexeme)).length := by
    rw [List.length_map]
    exact hlen
  have hbinds : ∀ x ∈ (params.map (·.lexeme)).reverse,
      ((Bindings.ofLists (params.map (·.lexeme)) arguments).get? x).isSome :=
    fun x hx => Bindings.isSome_get?_ofLists hlen' (List.mem_reverse.mp hx)
  have hvars : ∀ x v, (Bindings.ofLists (params.map (·.lexeme)) arguments).get? x = some v →
      x ∈ (params.map (·.lexeme)).reverse ∧ v.Settled K m.heap := by
    intro x v hv
    obtain ⟨hx, hmem⟩ := Bindings.mem_of_get?_ofLists hv
    exact ⟨List.mem_reverse.mpr hx, harguments v hmem⟩
  -- the frames around the function may bind all names of their scopes by now
  have hplaced := Machine.Placed.inFrame hsettled henv (henv.under_binds hsettled) hbinds hvars
    (List.subset_append_left _ (Stmt.declaredAll body))
  have hsubset := List.subset_append_right (params.map (·.lexeme)).reverse (Stmt.declaredAll body)
  exact (Agrees.inFrame (hbody hplaced hsteady (Machine.HasRoom.inFrame hsubset))).bind
    fun completion _ _ hreach hcompletion => result_agrees hreach.settled _ hcompletion

end Closure

/-- The instance is new, and the initializer is called with it. -/
theorem Class.instantiate_agrees (hbody : BodyRunner.Agrees cbody pbody) (hsettled : m.heap.Settled K) {c : Class}
    (hc : c.Settled K m.heap) {arguments : List Value} (harguments : ∀ v ∈ arguments, v.Settled K m.heap)
    (hlen : arguments.length = c.arity) :
    Eval.Agrees (c.instantiate cbody arguments) (c.instantiate pbody arguments) []
      (fun K h v => v.Settled K h) K m := by
  apply (Agrees.alloc hsettled (.inr rfl)).bind
  intro address K₁ m₁ hreach _
  dsimp only
  -- without an initializer there is nothing to call
  cases hinit : c.initializer? with
  | none => exact .pure hreach.settled (hc.mono hreach.grown)
  | some f =>
    have hmethod : f.IsSettledMethod K₁ m₁.heap := (hc.findMethod? hinit).mono hreach.grown
    have harity : arguments.length = f.arity := by
      rw [hlen, Class.arity, hinit]
      rfl
    have hthis : Value.Settled K₁ m₁.heap (.object ⟨address, c⟩) := hc.mono hreach.grown
    apply (Closure.bind_agrees hreach.settled hmethod hthis).bind
    intro g K₂ m₂ hreach₂ ⟨hg, hdeclaration⟩
    have hgrown := hreach.grown.trans hreach₂.grown
    have hcall := Closure.call_agrees hbody hreach₂.settled hg (fun v hv => (harguments v hv).mono hgrown)
      (by rw [harity, Closure.arity, Closure.arity, hdeclaration])
    apply hcall.bind
    intro _ K₃ m₃ hreach₃ _
    exact .pure hreach₃.settled (Value.Settled.mono hthis (hreach₂.grown.trans hreach₃.grown))

/-- A field or a bound method. -/
theorem Instance.get_agrees (hsettled : m.heap.Settled K) {i : Instance} (hi : i.origin.Settled K m.heap)
    (name : Token) : Eval.Agrees (i.get name) (i.get name) [] (fun K h v => v.Settled K h) K m := by
  apply Agrees.get
  cases hfield : (m.heap.fields i.address).get? name.lexeme with
  | some v => exact .pure hsettled (hsettled.fields hfield)
  | none =>
    dsimp only
    cases hmethod : i.origin.findMethod? name.lexeme with
    | none => exact .fail hsettled _ _
    | some f =>
      have hobject : Value.Settled K m.heap (.object i) := hi
      exact (Closure.bind_agrees hsettled (hi.findMethod? hmethod) hobject).bind
        fun _ _ _ hreach hg => .pure hreach.settled hg.1

/-- A call with as many arguments as the value takes. -/
theorem Value.call_agrees (settings : Settings) (hbody : BodyRunner.Agrees cbody pbody) (hsettled : m.heap.Settled K)
    {callee : Value} (hcallee : callee.Settled K m.heap) {arguments : List Value}
    (harguments : ∀ v ∈ arguments, v.Settled K m.heap) (harity : callee.arity? = some arguments.length) :
    Eval.Agrees (callee.call settings cbody arguments) (callee.call settings pbody arguments) []
      (fun K h v => v.Settled K h) K m := by
  cases callee with
  | function f => exact Closure.call_agrees hbody hsettled hcallee harguments (Option.some.inj harity).symm
  | clock => exact .readClock hsettled settings
  | classValue c => exact Class.instantiate_agrees hbody hsettled hcallee harguments (Option.some.inj harity).symm
  | nil | bool | number | string | object => cases harity

/-! ## Variables

The two places at which a compared run looks twice. -/

namespace Runner

theorem lookUp_agrees (hsettled : m.heap.Settled K) (reference : Reference Hops) :
    Eval.Agrees (lookUp reference) (lookUp reference) [] (fun K h v => v.Settled K h) K m := by
  unfold lookUp
  cases reference.note with
  | none => exact .read hsettled _ _
  | some d => exact Agrees.get (.readAt hsettled _ _ _)

/-- The frame that is changed has the name already, as the reference is steady. -/
theorem assign_agrees (h : m.Placed K S D T) {target : Reference Hops} (htarget : target.Steady S D) {v : Value}
    (hv : v.Settled K m.heap) :
    Eval.Agrees (assign target v) (assign target v) [] (fun _ _ _ => True) K m := by
  unfold assign
  cases hd : target.note with
  | none => exact .assign h.settled _ _ hv
  | some d =>
    obtain ⟨a, ha, hbinds⟩ := h.frame htarget hd
    exact Agrees.get (.assignAt h.settled ha hbinds hv)

/-- A reference is looked up where the search finds it. -/
theorem agrees_lookUp (h : m.Placed K S D T) {reference : Reference Hops} (hr : reference.Steady S D) :
    reference.agrees (lookUp reference) m = true := by
  apply h.agrees hr
  · -- bound in the frame that the note names, or in the globals
    intro a ha hbinds
    obtain ⟨v, hv⟩ := Option.isSome_iff_exists.mp hbinds
    unfold Reference.frame? at ha
    unfold endsUndefined lookUp
    cases hd : reference.note with
    | some d =>
      rw [hd] at ha
      dsimp only at ha ⊢
      unfold Eval.readAt
      rw [get_bind, get_bind, Environment.getAt_of_getElem? ha hv]
      rfl
    | none =>
      rw [hd] at ha
      cases ha
      dsimp only
      unfold Eval.read
      rw [get_bind, Environment.get?_globals, hv]
      rfl
  · -- bound nowhere: the search misses the name, and the run reports it
    intro hd hmissing
    unfold endsUndefined lookUp
    rw [hd]
    dsimp only
    unfold Eval.read
    rw [get_bind, Environment.get?_eq_bind_holder?, hmissing]
    rfl

/-- A variable is assigned to where the search finds it. -/
theorem agrees_assign (h : m.Placed K S D T) {target : Reference Hops} (htarget : target.Steady S D) (v : Value) :
    target.agrees (assign target v) m = true := by
  apply h.agrees htarget
  · intro a ha hbinds
    unfold Reference.frame? at ha
    unfold endsUndefined assign
    cases hd : target.note with
    | some d =>
      rw [hd] at ha
      dsimp only at ha ⊢
      unfold Eval.assignAt
      rw [get_bind, Environment.frameAt_of_getElem? ha]
      rfl
    | none =>
      rw [hd] at ha
      cases ha
      dsimp only
      unfold Eval.assign
      rw [get_bind, Environment.holder?_globals hbinds]
      rfl
  · -- bound nowhere, which is reported here as well
    intro hd hmissing
    unfold endsUndefined assign
    rw [hd]
    dsimp only
    unfold Eval.assign
    rw [get_bind, hmissing]
    rfl

/-- The second look finds what the first one did. -/
theorem lookUpCompared_agrees (h : m.Placed K S D T) {reference : Reference Hops} (hr : reference.Steady S D) :
    Eval.Agrees (lookUpCompared reference) (lookUp reference) [] (fun K h v => v.Settled K h) K m :=
  Agrees.ensuring (agrees_lookUp h hr) (lookUp_agrees h.settled reference)

theorem assignCompared_agrees (h : m.Placed K S D T) {target : Reference Hops} (htarget : target.Steady S D)
    {v : Value} (hv : v.Settled K m.heap) :
    Eval.Agrees (assignCompared target v) (assign target v) [] (fun _ _ _ => True) K m :=
  Agrees.ensuring (agrees_assign h htarget v) (assign_agrees h htarget hv)

/-! ## Expressions

Expressions declare nothing in the frame they are in, so that the place is the same for all parts. -/

theorem evaluateAll_agrees (hrun : Runner.Agrees compared plain) {es : List (Expr Hops)} (h : m.Placed K S D T)
    (hsteady : Expr.Steady.all S D es) :
    Eval.Agrees (compared.evaluateAll es) (plain.evaluateAll es) [] (fun K h vs => ∀ v ∈ vs, v.Settled K h) K m := by
  induction es generalizing m K with
  | nil => exact .pure h.settled fun _ hv => absurd hv List.not_mem_nil
  | cons e es ih =>
    obtain ⟨he, hes⟩ := hsteady
    apply (hrun.evaluate h he).bind
    intro v K₁ m₁ hreach hv
    apply (ih (h.mono hreach) hes).bind
    intro vs K₂ m₂ hreach₂ hvs
    exact .pure hreach₂.settled (List.forall_mem_cons.mpr ⟨hv.mono hreach₂.grown, hvs⟩)

/-- Statements, each at the place that those before it have led to. -/
theorem executeAll_agrees (hrun : Runner.Agrees compared plain) :
    BodyRunner.Agrees compared.executeAll plain.executeAll := by
  intro ss
  induction ss with
  | nil => exact fun h _ _ => .pure h.settled trivial
  | cons s ss ih =>
    intro S D T K m h hsteady hroom
    obtain ⟨hs, hss⟩ := hsteady
    have hroomFirst := hroom.subset (List.subset_append_left s.declared (Stmt.declaredAll ss))
    have hroomRest := hroom.subset (List.subset_append_right s.declared (Stmt.declaredAll ss))
    apply (hrun.execute h hs hroomFirst).bind
    intro completion K₁ m₁ hreach ⟨hcompletion, hscopes⟩
    cases completion with
    | returning v => exact .pure hreach.settled hcompletion
    | completed =>
      -- what follows stands behind the declarations of the first statement
      exact ih (h.declare hreach (hscopes rfl)) hss (hroomRest.mono h.scopes hreach)

/-- Both sides check the same before they call. -/
theorem call_agrees (settings : Settings) (hrun : Runner.Agrees compared plain) (hsettled : m.heap.Settled K)
    (paren : Token) {callee : Value} (hcallee : callee.Settled K m.heap) {arguments : List Value}
    (harguments : ∀ v ∈ arguments, v.Settled K m.heap) :
    Eval.Agrees (compared.call settings paren callee arguments) (plain.call settings paren callee arguments) []
      (fun K h v => v.Settled K h) K m := by
  unfold call
  cases harity : callee.arity? with
  | none => exact .fail hsettled _ _
  | some n =>
    dsimp only
    by_cases hn : arguments.length = n
    · -- each parameter gets an argument, so the frame of the call binds them all
      rw [if_pos hn, if_pos hn]
      rw [← hn] at harity
      exact (Value.call_agrees settings (executeAll_agrees hrun) hsettled hcallee harguments harity).overflowAt
    · rw [if_neg hn, if_neg hn]
      exact .fail hsettled _ _

/-- Two values are read by distance and a method is bound. -/
theorem superMethod_agrees (hsettled : m.heap.Settled K) (keyword : Reference Hops) (method : Token) :
    Eval.Agrees (superMethod keyword method) (superMethod keyword method) [] (fun K h v => v.Settled K h) K m := by
  unfold superMethod
  cases keyword.note with
  | none => exact .stop hsettled _
  | some d =>
    apply Agrees.get
    apply (Agrees.readAt hsettled m.environment d "super").bind
    intro superclass K₁ m₁ hreach hsuper
    apply (Agrees.readAt hreach.settled m.environment (d - 1) "this").bind
    intro this K₂ m₂ hreach₂ hthis
    cases superclass with
    | classValue c =>
      dsimp only
      cases hmethod : c.findMethod? method.lexeme with
      | none => exact .fail hreach₂.settled _ _
      | some f =>
        have hc : c.Settled K₂ m₂.heap := Class.Settled.mono hsuper hreach₂.grown
        exact (Closure.bind_agrees hreach₂.settled (hc.findMethod? hmethod) hthis).bind
          fun _ _ _ hreach₃ hg => .pure hreach₃.settled hg.1
    -- what is bound is not a class; both runs stop at that, and no name is looked for
    | _ => exact .stop hreach₂.settled _

/-- A steady expression has one value in the run that compares both lookups and in the plain run: where a name is read
or assigned to, both lookups find the same frame. -/
theorem evaluateCompared_agrees (settings : Settings) (hrun : Runner.Agrees compared plain) (h : m.Placed K S D T)
    {e : Expr Hops} (hsteady : e.Steady S D) :
    Eval.Agrees (evaluateCompared settings compared e) (evaluateNode settings plain e) []
      (fun K h v => v.Settled K h) K m := by
  -- names are compared where they are read and assigned to; elsewhere the parts agree one after the other
  cases e with
  | assign target value =>
    obtain ⟨htarget, hvalue⟩ := hsteady
    apply (hrun.evaluate h hvalue).bind
    intro v K₁ m₁ hreach hv
    exact (assignCompared_agrees (h.mono hreach) htarget hv).bind
      fun _ _ _ hreach₂ _ => .pure hreach₂.settled (hv.mono hreach₂.grown)
  | binary left operator right =>
    obtain ⟨hleft, hright⟩ := hsteady
    apply (hrun.evaluate h hleft).bind
    intro l K₁ m₁ hreach _
    exact (hrun.evaluate (h.mono hreach) hright).bind
      fun r _ _ hreach₂ _ => .still hreach₂.settled (binary_still operator l r)
  | call callee paren arguments =>
    obtain ⟨hcallee, harguments⟩ := hsteady
    apply (hrun.evaluate h hcallee).bind
    intro f K₁ m₁ hreach hf
    exact (evaluateAll_agrees hrun (h.mono hreach) harguments).bind
      fun vs _ _ hreach₂ hvs => call_agrees settings hrun hreach₂.settled paren (hf.mono hreach₂.grown) hvs
  | get object name =>
    apply (hrun.evaluate (e := object) h hsteady).bind
    intro v K₁ m₁ hreach hv
    cases v with
    | object i => exact Instance.get_agrees hreach.settled hv name
    | _ => exact .fail hreach.settled _ _
  | grouping inner => exact hrun.evaluate (e := inner) h hsteady
  | literal value =>
    apply Agrees.pure h.settled
    cases value <;> trivial
  | logical left operator right =>
    obtain ⟨hleft, hright⟩ := hsteady
    apply (hrun.evaluate h hleft).bind
    intro l K₁ m₁ hreach hl
    by_cases htruthy : l.isTruthy = (operator.kind == .or)
    · rw [if_pos htruthy, if_pos htruthy]
      exact .pure hreach.settled hl
    · rw [if_neg htruthy, if_neg htruthy]
      exact hrun.evaluate (h.mono hreach) hright
  | set object name value =>
    obtain ⟨hobject, hvalue⟩ := hsteady
    apply (hrun.evaluate h hobject).bind
    intro o K₁ m₁ hreach _
    cases o with
    | object i =>
      apply (hrun.evaluate (h.mono hreach) hvalue).bind
      intro v K₂ m₂ hreach₂ hv
      exact (Agrees.setField hreach₂.settled hv i.address name.lexeme).bind
        fun _ _ _ hreach₃ _ => .pure hreach₃.settled (hv.mono hreach₃.grown)
    | _ => exact .fail hreach.settled _ _
  | super keyword method => exact superMethod_agrees h.settled keyword method
  | this keyword => exact lookUpCompared_agrees h hsteady
  | unary operator right =>
    exact (hrun.evaluate (e := right) h hsteady).bind fun v _ _ hreach _ =>
      .still hreach.settled (unary_still operator v)
  | «variable» reference => exact lookUpCompared_agrees h hsteady
  | unknown => exact .stop h.settled _

/-! ## Classes

A class declaration step by step. The frame of `super` has its one name from the first. -/

/-- The superclass is a class or there is a mistake. -/
theorem parentOf_agrees (h : m.Placed K S D T) (heritage : Option (Reference Hops)) :
    Eval.Agrees (parentOf heritage) (parentOf heritage) []
      (fun K h parent => parent.isSome = heritage.isSome ∧ ∀ c ∈ parent, c.Settled K h) K m := by
  cases heritage with
  | none => exact .pure h.settled ⟨rfl, fun _ hc => by cases hc⟩
  | some reference =>
    have hsuperclass : Eval.Agrees (superclass reference) (superclass reference) []
        (fun K h c => c.Settled K h) K m := by
      apply (lookUp_agrees h.settled reference).bind
      intro v K₁ m₁ hreach hv
      cases v with
      | classValue c => exact .pure hreach.settled hv
      | _ => exact .fail hreach.settled _ _
    apply hsuperclass.map
    intro c K₁ m₁ _ hc
    refine ⟨rfl, fun c' hc' => ?_⟩
    cases hc'
    exact hc

/-- The scope between a class and the methods of a subclass. -/
def superScope (parent : Option Class) : Scopes :=
  match parent with
  | some _ => [["super"]]
  | none => []

/-- The frame of `super` is opened if there is a superclass. -/
theorem methodScope_agrees (hsettled : m.heap.Settled K) {env : Environment} (henv : env.Settled K m.heap S T)
    {parent : Option Class} (hparent : ∀ c ∈ parent, c.Settled K m.heap) :
    Eval.Agrees (methodScope env parent) (methodScope env parent) []
      (fun K h inner => inner.Settled K h (superScope parent ++ S) (superScope parent ++ T)) K m := by
  cases parent with
  | none => exact .pure hsettled henv
  | some c =>
    have hc : Value.Settled K m.heap (.classValue c) := hparent c rfl
    exact (Agrees.allocFrame hsettled henv "super" hc).map fun _ _ _ _ hinner => hinner

/-- Each method is steady in the scopes around its class. -/
theorem createMethods_agrees {env : Environment} {ds : List (FunDecl Hops)} {methods : Bindings Closure}
    (hsettled : m.heap.Settled K) (henv : env.Settled K m.heap S T)
    (hsteady : FunDecl.AllSteady (["this"] :: S) (["this"] :: T) ds)
    (hmethods : ∀ name f, methods.get? name = some f → f.IsSettledMethod K m.heap) :
    Eval.Agrees (createMethods env ds methods) (createMethods env ds methods) []
      (fun K h methods => ∀ name f, methods.get? name = some f → f.IsSettledMethod K h) K m := by
  induction ds generalizing m K methods with
  | nil => exact .pure hsettled hmethods
  | cons d ds ih =>
    obtain ⟨hd, hds⟩ := hsteady
    apply (Closure.create_agrees hsettled d env (d.name.lexeme == "init")).bind
    intro f K₁ m₁ hreach ⟨hdeclaration, henvironment⟩
    apply ih hreach.settled (henv.mono hreach.grown) hds
    intro name g hg
    rw [Bindings.get?_put] at hg
    split at hg
    -- the latest method of a name counts
    case isTrue =>
      cases hg
      refine ⟨S, T, ?_, ?_⟩
      · rw [henvironment]
        exact henv.mono hreach.grown
      · rw [hdeclaration]
        exact hd
    case isFalse => exact (hmethods name g hg).mono hreach.grown

/-- The name gets the class that it was declared for. -/
theorem finishClass_agrees (hsettled : m.heap.Settled K) (env : Environment) (name : Token) {parent : Option Class}
    (hparent : ∀ c ∈ parent, c.Settled K m.heap) {methods : Bindings Closure}
    (hmethods : ∀ name f, methods.get? name = some f → f.IsSettledMethod K m.heap) :
    Eval.Agrees (finishClass env name parent methods) (finishClass env name parent methods) []
      (fun _ _ _ => True) K m := by
  apply (Agrees.alloc hsettled (.inl rfl)).bind
  intro address K₁ m₁ hreach _
  have hc : Value.Settled K₁ m₁.heap
      (.classValue ⟨⟨address, name.lexeme, methods⟩, parent.elim [] fun c => c.own :: c.inherited⟩) :=
    Class.Settled.extend (fun n f hf => (hmethods n f hf).mono hreach.grown)
      fun c hc => (hparent c hc).mono hreach.grown
  exact .assign hreach.settled env name hc

/-- The name is declared before the methods are made, and they see it. -/
theorem declareClass_agrees (h : m.Placed K S D T) {name : Token} {heritage : Option (Reference Hops)}
    {methods : List (FunDecl Hops)} (hsteady : (Stmt.class name heritage methods).Steady S D T)
    (hroom : m.HasRoom K [name.lexeme]) :
    Eval.Agrees (declareClass name heritage methods) (declareClass name heritage methods) [name.lexeme]
      (fun K h _ => m.environment.Settled K h (S.declare [name.lexeme]) T) K m := by
  rw [declareClass_eq]
  apply (parentOf_agrees h heritage).bind
  intro parent K₁ m₁ hreach ⟨hsome, hparent⟩
  -- the class has a frame for `super` exactly if the text names a superclass
  have hmethods : FunDecl.AllSteady (["this"] :: (superScope parent ++ S.declare [name.lexeme]))
      (["this"] :: (superScope parent ++ T)) methods := by
    cases heritage with
    | none =>
      cases parent with
      | none => exact hsteady
      | some c => cases hsome
    | some reference =>
      cases parent with
      | none => cases hsome
      | some c => exact hsteady.2
  have hnil : ∀ {h'}, Grown K₁ m₁.heap K₁ h' → m₁.environment.Settled K₁ h' (S.declare [name.lexeme]) T →
      Value.Settled K₁ h' .nil := fun _ _ => trivial
  apply (Agrees.declare (h.mono hreach) (hroom.mono h.scopes hreach) hnil).bind
  intro _ K₂ m₂ hreach₂ hscopes
  apply Agrees.get
  rw [hreach₂.environment, hreach.environment]
  rw [hreach.environment] at hscopes
  have hparent₂ : ∀ c ∈ parent, c.Settled K₂ m₂.heap := fun c hc => (hparent c hc).mono hreach₂.grown
  apply (methodScope_agrees hreach₂.settled hscopes hparent₂).bind
  intro inner K₃ m₃ hreach₃ hinner
  have hnone : ∀ name f, Bindings.get? ([] : Bindings Closure) name = some f → f.IsSettledMethod K₃ m₃.heap := by
    intro name f heq
    cases heq
  apply (createMethods_agrees hreach₃.settled hinner hmethods hnone).bind
  intro table K₄ m₄ hreach₄ htable
  have hgrown := hreach₃.grown.trans hreach₄.grown
  have hparent₄ : ∀ c ∈ parent, c.Settled K₄ m₄.heap := fun c hc => (hparent₂ c hc).mono hgrown
  apply (finishClass_agrees hreach₄.settled m.environment name hparent₄ htable).mono
  intro K₅ m₅ hreach₅ _ _
  exact hscopes.mono (hgrown.trans hreach₅.grown)

/-! ## Statements

A declaration moves the place by one name. Everything else leaves it where it is. -/

theorem evaluateOption_agrees (hrun : Runner.Agrees compared plain) (h : m.Placed K S D T) {e? : Option (Expr Hops)}
    (hsteady : Expr.OptionSteady S D e?) :
    Eval.Agrees (compared.evaluateOption e?) (plain.evaluateOption e?) [] (fun K h v => v.Settled K h) K m := by
  cases e? with
  | none => exact .pure h.settled trivial
  | some e => exact hrun.evaluate h hsteady

/-- A loop whose body declares nothing keeps its place. -/
theorem repeatWhile_agrees {ctest ptest : Eval Bool} {cbody pbody : Eval Completion}
    (htest : ∀ {K : Ceilings} {m : Machine}, m.Placed K S D T → Eval.Agrees ctest ptest [] (fun _ _ _ => True) K m)
    (hbody : ∀ {K : Ceilings} {m : Machine}, m.Placed K S D T →
      Eval.Agrees cbody pbody [] (fun K h c => c.Settled K h) K m)
    (rounds : Nat) (h : m.Placed K S D T) :
    Eval.Agrees (repeatWhile ctest cbody rounds) (repeatWhile ptest pbody rounds) []
      (fun K h c => c.Settled K h) K m := by
  induction rounds generalizing m K with
  | zero => exact .stop h.settled _
  | succ rounds ih =>
    apply (htest h).bind
    intro b K₁ m₁ hreach _
    cases b with
    | false => exact .pure hreach.settled trivial
    | true =>
      have h₁ := h.mono hreach
      apply (hbody h₁).bind
      intro completion K₂ m₂ hreach₂ hcompletion
      cases completion with
      | returning v => exact .pure hreach₂.settled hcompletion
      -- each round may let frames and ceilings grow; the place stays the same
      | completed => exact ih (h₁.mono hreach₂)

/-- A statement that declares nothing leaves its place as it was. -/
theorem leaves_of_settled (h : m.Placed K S D T) {compared plain : Eval Completion}
    (hrun : Eval.Agrees compared plain [] (fun K h c => c.Settled K h) K m) :
    Eval.Agrees compared plain [] (fun K h c => c.Leaves K h m.environment (S.declare []) T) K m := by
  apply hrun.mono
  intro K₁ m₁ hreach c hc
  rw [Scopes.declare_nil_right]
  exact ⟨hc, fun _ => h.scopes.mono hreach.grown⟩

/-- A statement that declares nothing can stand in a branch or a loop. -/
theorem execute_agrees_of_quiet (hrun : Runner.Agrees compared plain) (h : m.Placed K S D T) {s : Stmt Hops}
    (hdeclared : s.declared = []) (hsteady : s.Steady S D T) :
    Eval.Agrees (compared.execute s) (plain.execute s) [] (fun K h c => c.Settled K h) K m := by
  have hroom : m.HasRoom K s.declared := by
    rw [hdeclared]
    exact .nil
  have hexecute := hrun.execute h hsteady hroom
  rw [hdeclared] at hexecute
  exact hexecute.mono fun _ _ _ _ hc => hc.1

/-- The branches of an `if` declare nothing, so that none of them fills a frame beyond its ceiling. -/
theorem if_agrees (settings : Settings) (hrun : Runner.Agrees compared plain) (h : m.Placed K S D T)
    {condition : Expr Hops} {thenBranch : Stmt Hops} {elseBranch : Option (Stmt Hops)}
    (hsteady : (Stmt.if condition thenBranch elseBranch).Steady S D T) :
    Eval.Agrees (executeNode settings compared (.if condition thenBranch elseBranch))
      (executeNode settings plain (.if condition thenBranch elseBranch)) [] (fun K h c => c.Settled K h) K m := by
  -- the branch that is taken is quiet, with or without an `else`
  cases elseBranch with
  | none =>
    obtain ⟨hcondition, ⟨hquiet, hthen⟩, -⟩ := hsteady
    apply (hrun.evaluate h hcondition).bind
    intro v K₁ m₁ hreach _
    by_cases htruthy : v.isTruthy = true
    · rw [if_pos htruthy, if_pos htruthy]
      exact execute_agrees_of_quiet hrun (h.mono hreach) hquiet hthen
    · rw [if_neg htruthy, if_neg htruthy]
      exact .pure hreach.settled trivial
  | some s =>
    obtain ⟨hcondition, ⟨hquiet, hthen⟩, hquiet', helse⟩ := hsteady
    apply (hrun.evaluate h hcondition).bind
    intro v K₁ m₁ hreach _
    by_cases htruthy : v.isTruthy = true
    · rw [if_pos htruthy, if_pos htruthy]
      exact execute_agrees_of_quiet hrun (h.mono hreach) hquiet hthen
    · rw [if_neg htruthy, if_neg htruthy]
      exact execute_agrees_of_quiet hrun (h.mono hreach) hquiet' helse

/-- The rules for statements, where the superclass of a class is not compared. -/
theorem executeNode_agrees (settings : Settings) (hrun : Runner.Agrees compared plain) (h : m.Placed K S D T)
    {s : Stmt Hops} (hsteady : s.Steady S D T) (hroom : m.HasRoom K s.declared) :
    Eval.Agrees (executeNode settings compared s) (executeNode settings plain s) s.declared
      (fun K h c => c.Leaves K h m.environment (S.declare s.declared) T) K m := by
  -- what declares a name ends at another place than it began; for all other forms it is enough that the result is
  -- settled
  cases s with
  | block body =>
    have hplaced : Machine.Placed _ ([] :: S) ([] :: D) (Stmt.declaredAll body :: T)
        { m with heap := (m.heap.alloc (.frame [])).2, environment := m.heap.cells.size :: m.environment } :=
      Machine.Placed.inFrame h.settled h.scopes h.under (fun _ hx => absurd hx List.not_mem_nil)
        (fun _ _ hv => by cases hv) (List.nil_subset (Stmt.declaredAll body))
    have hsubset := List.Subset.refl (Stmt.declaredAll body)
    exact leaves_of_settled h
      (Agrees.inFrame (executeAll_agrees hrun hplaced hsteady (Machine.HasRoom.inFrame hsubset)))
  | expression value =>
    apply leaves_of_settled h
    exact (hrun.evaluate (e := value) h hsteady).bind fun _ _ _ hreach _ => .pure hreach.settled trivial
  | function declaration =>
    apply Agrees.get
    apply (Closure.create_agrees h.settled declaration m.environment false).bind
    intro f K₁ m₁ hreach ⟨hdeclaration, henvironment⟩
    -- the function sees its own name, which is bound only now
    have hvalue : ∀ {h'}, Grown K₁ m₁.heap K₁ h' →
        m₁.environment.Settled K₁ h' (S.declare [declaration.name.lexeme]) T → Value.Settled K₁ h' (.function f) := by
      intro h' _ hscopes
      refine ⟨S.declare [declaration.name.lexeme], T, ?_, ?_⟩
      · rw [henvironment, ← hreach.environment]
        exact hscopes
      · rw [hdeclaration]
        exact hsteady
    apply (Agrees.declare (h.mono hreach) (hroom.mono h.scopes hreach) hvalue).bind
    intro _ K₂ m₂ hreach₂ hscopes
    rw [hreach.environment] at hscopes
    exact .pure hreach₂.settled ⟨trivial, fun _ => hscopes⟩
  | «class» name heritage methods =>
    exact (declareClass_agrees h hsteady hroom).bind
      fun _ _ _ hreach hscopes => .pure hreach.settled ⟨trivial, fun _ => hscopes⟩
  | «if» condition thenBranch elseBranch =>
    rw [Stmt.declared_if hsteady]
    exact leaves_of_settled h (if_agrees settings hrun h hsteady)
  | print value =>
    apply leaves_of_settled h
    apply (hrun.evaluate (e := value) h hsteady).bind
    intro v K₁ m₁ hreach _
    exact (Agrees.print hreach.settled v.text).bind fun _ _ _ hreach₂ _ => .pure hreach₂.settled trivial
  | «return» keyword value =>
    apply leaves_of_settled h
    exact (evaluateOption_agrees hrun h hsteady).bind fun v _ _ hreach hv => .pure hreach.settled hv
  | var name initializer =>
    apply (evaluateOption_agrees hrun h hsteady).bind
    intro v K₁ m₁ hreach hv
    have hdeclare := Agrees.declare (h.mono hreach) (hroom.mono h.scopes hreach) fun hgrown _ => hv.mono hgrown
    apply hdeclare.bind
    intro _ K₂ m₂ hreach₂ hscopes
    rw [hreach.environment] at hscopes
    exact .pure hreach₂.settled ⟨trivial, fun _ => hscopes⟩
  | «while» condition body =>
    obtain ⟨hcondition, hdeclared, hbody⟩ := hsteady
    rw [Stmt.declared, hdeclared]
    apply leaves_of_settled h
    apply repeatWhile_agrees _ _ _ h
    · exact fun h => (hrun.evaluate h hcondition).map fun _ _ _ _ _ => trivial
    · exact fun h => execute_agrees_of_quiet hrun h hdeclared hbody
  | unknown => exact .stop h.settled _

/-- The second look at a variable changes nothing, and neither do the other forms of statements. -/
theorem executeCompared_agrees (settings : Settings) (hrun : Runner.Agrees compared plain) (h : m.Placed K S D T)
    {s : Stmt Hops} (hsteady : s.Steady S D T) (hroom : m.HasRoom K s.declared) :
    Eval.Agrees (executeCompared settings compared s) (executeNode settings plain s) s.declared
      (fun K h c => c.Leaves K h m.environment (S.declare s.declared) T) K m := by
  have hnode := executeNode_agrees settings hrun h hsteady hroom
  cases s with
  | «class» name heritage methods =>
    cases heritage with
    | none => exact hnode
    | some reference => exact Agrees.ensuring (agrees_lookUp h hsteady.1) hnode
  | _ => exact hnode

end Runner

/-! ## Every depth

By induction on the bound both runners agree, and so do the runs of a program. -/

/-- Runs nested to any depth agree with the search. -/
theorem nested_agrees (settings : Settings) (n : Nat) :
    Runner.Agrees ⟨evaluateNestedCompared settings n, executeNestedCompared settings n⟩
      ⟨evaluateNested settings n, executeNested settings n⟩ := by
  induction n with
  | zero => exact ⟨fun h _ => .stop h.settled _, fun h _ _ => .stop h.settled _⟩
  | succ n ih =>
    constructor
    · exact fun h hsteady => Runner.evaluateCompared_agrees settings ih h hsteady
    · exact fun h hsteady hroom => Runner.executeCompared_agrees settings ih h hsteady hroom

/-- Whole programs agree with the search. -/
theorem Settings.comparer_agrees (settings : Settings) :
    BodyRunner.Agrees settings.comparer.executeAll settings.runner.executeAll :=
  Runner.executeAll_agrees (nested_agrees settings settings.nesting)

end LoxLang
