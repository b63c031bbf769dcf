import LoxLang.Proofs.Lineage.Orderly

/-!
# The evaluator is orderly

Every rule of the evaluator keeps the lineage, whatever the notes of the tree are: each allocation is of something whose
links lead to what the machine has already, and no other step makes a link.

* **`Runner.evaluateNode_orderly`**, **`Runner.executeNode_orderly`** — one level of nesting, form by form.
* **`nested_orderly`** — all levels, by induction on the depth.
* **`Machine.run_orderly`** — whole programs.
-/

namespace LoxLang

open Eval

/-- What a statement ends with is known. -/
def Completion.Known (L : Lineage) : Completion → Prop
  | .returning v => L.Knows v
  | .completed => True

/-! ## Functions, classes and instances

Each allocates, and what is allocated leads to what was there: a function to its environment, a class to its superclass,
an instance to its class. -/

section

variable {L : Lineage} {m : Machine}

/-- A function leads to the environment it is made in. -/
theorem Closure.create_orderly (hm : m.Descends L) (declaration : FunDecl Hops) {env : Environment} (henv : L.Sees env)
    (isInitializer : Bool) :
    OrderlyStep (Closure.create declaration env isInitializer)
      (fun L' f => L'.Knows (.function f)) L m :=
  (Orderly.allocFunction hm henv declaration isInitializer).bind fun _ _ _ hev hf => .pure hev.descends hf

/-- The frame of `this` is around the bound method and within the environment of the method. -/
theorem Closure.bind_orderly (hm : m.Descends L) {f : Closure} (hf : L.Knows (.function f)) {this : Value}
    (hthis : L.Knows this) : OrderlyStep (f.bind this) (fun L' g => L'.Knows (.function g)) L m := by
  have hvars : ∀ name v, Bindings.get? [("this", this)] name = some v → L.Knows v := by
    intro name v hv
    rw [Bindings.get?_singleton] at hv
    split at hv
    · cases hv
      exact hthis
    · cases hv
  refine (Orderly.allocFrame hm (hm.heap.ordered.sees hf) hvars).bind fun frame L' m' hev hframe => ?_
  exact Closure.create_orderly hev.descends _ hframe _

/-- A method that was found, bound to an instance. -/
theorem Closure.bindMethod_orderly (hm : m.Descends L) {c : Class} (hc : L.Knows (.classValue c)) {name : String}
    {f : Closure} (hf : c.findMethod? name = some f) {this : Value} (hthis : L.Knows this) :
    OrderlyStep (do return .function (← f.bind this)) Lineage.Knows L m :=
  (Closure.bind_orderly hm (hm.heap.ordered.findMethod? hc hf) hthis).bind fun _ _ _ hev hg => .pure hev.descends hg

variable {checkedBody : (Machine → Bool) → BodyRunner} {body : BodyRunner}
  (hbody : ∀ ss {L m}, m.Descends L →
    Orderly (fun check => checkedBody check ss) (body ss) (fun L' c => c.Known L') L m)
include hbody

/-- The frame of a call is within the environment of the function, and not of the caller. -/
theorem Closure.call_orderly (hm : m.Descends L) {f : Closure} (hf : L.Knows (.function f)) {arguments : List Value}
    (harguments : ∀ v ∈ arguments, L.Knows v) :
    Orderly (fun check => f.call (checkedBody check) arguments) (f.call body arguments) Lineage.Knows L m := by
  have henv := hm.heap.ordered.sees hf
  have hvars : ∀ name v, (Bindings.ofLists (f.declaration.params.map (·.lexeme)) arguments).get? name = some v →
      L.Knows v := fun name v hv => harguments v (Bindings.mem_of_get?_ofLists hv).2
  refine (Orderly.allocFrame hm henv hvars).bind fun frame L₁ m₁ hev hframe => ?_
  have hinside : Machine.Descends L₁ { m₁ with environment := frame :: f.environment } :=
    ⟨hev.descends.heap, hframe⟩
  refine (Orderly.within hev.descends (hbody _ hinside)).bind fun completion L₂ m₂ hev' hcompletion => ?_
  split
  · exact .readAt hev'.descends _ _ _
  · cases completion with
    | returning v => exact .pure hev'.descends hcompletion
    | completed => exact .pure hev'.descends trivial

/-- The instance leads to its class. -/
theorem Class.instantiate_orderly (hm : m.Descends L) {c : Class} (hc : L.Knows (.classValue c))
    {arguments : List Value} (harguments : ∀ v ∈ arguments, L.Knows v) :
    Orderly (fun check => c.instantiate (checkedBody check) arguments) (c.instantiate body arguments)
      Lineage.Knows L m := by
  refine (Orderly.allocObject hm hc).bind fun address L₁ m₁ hev hobject => ?_
  dsimp only
  split
  case h_1 initializer hinitializer =>
    have hfound := hm.heap.ordered.findMethod? hc hinitializer
    refine (Closure.bind_orderly hev.descends (hfound.mono hev.kept) hobject).bind fun g L₂ m₂ hev₂ hg => ?_
    have harguments₂ : ∀ v ∈ arguments, L₂.Knows v := fun v hv => (harguments v hv).mono (hev.trans hev₂).kept
    refine (Closure.call_orderly hbody hev₂.descends hg harguments₂).bind fun _ L₃ m₃ hev₃ _ => ?_
    exact .pure hev₃.descends (hobject.mono (hev₂.trans hev₃).kept)
  case h_2 => exact .pure hev.descends hobject

theorem Value.call_orderly (settings : Settings) (hm : m.Descends L) {callee : Value} (hcallee : L.Knows callee)
    {arguments : List Value} (harguments : ∀ v ∈ arguments, L.Knows v) :
    Orderly (fun check => callee.call settings (checkedBody check) arguments) (callee.call settings body arguments)
      Lineage.Knows L m := by
  cases callee with
  | function f => exact Closure.call_orderly hbody hm hcallee harguments
  | clock => exact .readClock hm settings
  | classValue c => exact Class.instantiate_orderly hbody hm hcallee harguments
  | nil | bool | number | string | object => exact .fault hm _

end

section

variable {L : Lineage} {m : Machine}

/-- A field, or a method that is bound. -/
theorem Instance.get_orderly (hm : m.Descends L) {i : Instance} (hi : L.Knows (.object i)) (name : Token) :
    OrderlyStep (i.get name) Lineage.Knows L m := by
  refine Orderly.get ?_
  cases hfield : (m.heap.fields i.address).get? name.lexeme with
  | some v => exact .pure hm (hm.heap.fields hfield)
  | none =>
    dsimp only
    cases hmethod : i.origin.findMethod? name.lexeme with
    | some method => exact Closure.bindMethod_orderly hm (hm.heap.ordered.origin hi) hmethod hi
    | none => exact .fail hm name fun x h => by cases h

end

/-! ## The rules

Whatever a note says, it leads to a frame of the environment or to none. -/

/-- A checked runner and the plain one, whose runs are orderly. -/
structure Runner.Orderly (checked : (Machine → Bool) → Runner) (plain : Runner) : Prop where
  evaluate : ∀ e {L m}, m.Descends L →
    Eval.Orderly (fun check => (checked check).evaluate e) (plain.evaluate e) Lineage.Knows L m
  execute : ∀ s {L m}, m.Descends L →
    Eval.Orderly (fun check => (checked check).execute s) (plain.execute s) (fun L' c => c.Known L') L m

namespace Runner

section

variable {L : Lineage} {m : Machine}

/-- What is read is known, as it comes from the heap. -/
theorem lookUp_orderly (hm : m.Descends L) (reference : Reference Hops) :
    OrderlyStep (lookUp reference) Lineage.Knows L m := by
  unfold lookUp
  cases reference.note with
  | none => exact .read hm hm.heap.globals reference.name
  | some distance => exact Orderly.get (.readAt hm _ _ _)

/-- The value was known before. -/
theorem assign_orderly (hm : m.Descends L) (target : Reference Hops) {v : Value} (hv : L.Knows v) :
    OrderlyStep (assign target v) (fun _ _ => True) L m := by
  unfold assign
  cases target.note with
  | none => exact .assign hm hm.heap.globals target.name hv
  | some distance => exact Orderly.get (.assignAt hm _ _ _ hv)

/-- The class and the instance are read, and a method is bound. -/
theorem superMethod_orderly (hm : m.Descends L) (keyword : Reference Hops) (method : Token) :
    OrderlyStep (superMethod keyword method) Lineage.Knows L m := by
  unfold superMethod
  cases keyword.note with
  | none => exact .fault hm _
  | some distance =>
    refine Orderly.get ?_
    refine (Orderly.readAt hm _ _ _).bind fun superclass L₁ m₁ hev hsuperclass => ?_
    refine (Orderly.readAt hev.descends _ _ _).bind fun this L₂ m₂ hev' hthis => ?_
    cases superclass with
    | classValue c =>
      dsimp only
      cases hfound : c.findMethod? method.lexeme with
      | some f => exact Closure.bindMethod_orderly hev'.descends (hsuperclass.mono hev'.kept) hfound hthis
      | none => exact .fail hev'.descends method fun x h => by cases h
    | _ => exact .fault hev'.descends _

/-- What is not a class is a mistake. -/
theorem superclass_orderly (hm : m.Descends L) (reference : Reference Hops) :
    OrderlyStep (superclass reference) (fun L' c => L'.Knows (.classValue c)) L m := by
  refine (lookUp_orderly hm reference).bind fun v L' m' hev hv => ?_
  cases v with
  | classValue c => exact .pure hev.descends hv
  | _ => exact .fail hev.descends reference.name fun x h => by cases h

/-- Methods lead to the environment of the class. -/
theorem createMethods_orderly (hm : m.Descends L) {env : Environment} (henv : L.Sees env) (ds : List (FunDecl Hops))
    {methods : Bindings Closure} (hmethods : ∀ x f, methods.get? x = some f → L.Knows (.function f)) :
    OrderlyStep (createMethods env ds methods)
      (fun L' made => ∀ x f, made.get? x = some f → L'.Knows (.function f)) L m := by
  induction ds generalizing methods L m with
  | nil => exact .pure hm hmethods
  | cons d ds ih =>
    refine (Closure.create_orderly hm d henv _).bind fun f L' m' hev hf => ?_
    refine ih hev.descends (hev.sees henv) fun x g hg => ?_
    rw [Bindings.get?_put] at hg
    split at hg
    · cases hg
      exact hf
    · exact (hmethods x g hg).mono hev.kept

/-! ### Class declarations

The class is allocated after its methods and after its superclass, so that it leads to what is older. -/

/-- The superclass is known. -/
theorem parentOf_orderly (hm : m.Descends L) (heritage : Option (Reference Hops)) :
    OrderlyStep (parentOf heritage) (fun L' parent => ∀ c ∈ parent, L'.Knows (.classValue c)) L m := by
  cases heritage with
  | none => exact .pure hm fun c hc => by cases hc
  | some reference =>
    refine (superclass_orderly hm reference).map fun L' m' _ c hc c' hc' => ?_
    cases hc'
    exact hc

/-- The frame of `super` is within the environment. -/
theorem methodScope_orderly (hm : m.Descends L) {env : Environment} (henv : L.Sees env) {parent : Option Class}
    (hparent : ∀ c ∈ parent, L.Knows (.classValue c)) :
    OrderlyStep (methodScope env parent) (fun L' inner => L'.Sees inner) L m := by
  cases parent with
  | none => exact .pure hm henv
  | some c =>
    refine (Orderly.allocFrame hm henv fun name v hv => ?_).map fun L' m' _ a ha => ha
    rw [Bindings.get?_singleton] at hv
    split at hv
    · cases hv
      exact hparent c rfl
    · cases hv

/-- The class is allocated, and its name is assigned. -/
theorem finishClass_orderly (hm : m.Descends L) {env : Environment} (henv : L.Sees env) (name : Token)
    {parent : Option Class} (hparent : ∀ c ∈ parent, L.Knows (.classValue c)) {methods : Bindings Closure}
    (hmethods : ∀ x f, methods.get? x = some f → L.Knows (.function f)) :
    OrderlyStep (finishClass env name parent methods) (fun _ _ => True) L m :=
  (Orderly.allocClass hm name.lexeme hmethods hparent).bind fun _ _ _ hev hclass =>
    .assign hev.descends (hev.sees henv) name hclass

/-- The superclass, the frame of `super` and the methods are all there before the class is. -/
theorem declareClass_orderly (hm : m.Descends L) (name : Token) (heritage : Option (Reference Hops))
    (methods : List (FunDecl Hops)) : OrderlyStep (declareClass name heritage methods) (fun _ _ => True) L m := by
  rw [declareClass_eq]
  refine (parentOf_orderly hm heritage).bind fun parent L₁ m₁ hev₁ hparent => ?_
  have hnil : L₁.Knows .nil := trivial
  refine (Orderly.declare hev₁.descends name hnil).bind fun _ L₂ m₂ hev₂ _ => ?_
  refine Orderly.get ?_
  have henv := hev₂.descends.environment
  have hparent₂ : ∀ c ∈ parent, L₂.Knows (.classValue c) := fun c hc => (hparent c hc).mono hev₂.kept
  refine (methodScope_orderly hev₂.descends henv hparent₂).bind fun inner L₃ m₃ hev₃ hinner => ?_
  refine (createMethods_orderly hev₃.descends hinner methods fun x f hf => by cases hf).bind
    fun made L₄ m₄ hev₄ hmade => ?_
  have hparent₄ : ∀ c ∈ parent, L₄.Knows (.classValue c) := fun c hc => (hparent₂ c hc).mono (hev₃.trans hev₄).kept
  exact finishClass_orderly hev₄.descends ((hev₃.trans hev₄).sees henv) name hparent₄ hmade

end

/-! ### Expressions and statements

By the forms of the tree. -/

section

variable {checked : (Machine → Bool) → Runner} {plain : Runner} (hrun : Runner.Orderly checked plain)
  {L : Lineage} {m : Machine}
include hrun

/-- Arguments stay known while the lineage grows. -/
theorem evaluateAll_orderly (hm : m.Descends L) (es : List (Expr Hops)) :
    Eval.Orderly (fun check => (checked check).evaluateAll es) (plain.evaluateAll es)
      (fun L' vs => ∀ v ∈ vs, L'.Knows v) L m := by
  induction es generalizing L m with
  | nil => exact .pure hm fun v hv => by cases hv
  | cons e es ih =>
    refine (hrun.evaluate e hm).bind fun v L₁ m₁ hev hv => ?_
    refine (ih hev.descends).bind fun vs L₂ m₂ hev' hvs => .pure hev'.descends fun u hu => ?_
    rcases List.mem_cons.mp hu with rfl | hu
    · exact hv.mono hev'.kept
    · exact hvs u hu

theorem evaluateOption_orderly (hm : m.Descends L) (e? : Option (Expr Hops)) :
    Eval.Orderly (fun check => (checked check).evaluateOption e?) (plain.evaluateOption e?) Lineage.Knows L m := by
  cases e? with
  | none => exact .pure hm trivial
  | some e => exact hrun.evaluate e hm

theorem executeAll_orderly (ss : List (Stmt Hops)) {L : Lineage} {m : Machine} (hm : m.Descends L) :
    Eval.Orderly (fun check => (checked check).executeAll ss) (plain.executeAll ss) (fun L' c => c.Known L') L m := by
  induction ss generalizing L m with
  | nil => exact .pure hm trivial
  | cons s ss ih =>
    refine (hrun.execute s hm).bind fun completion L' m' hev hcompletion => ?_
    cases completion with
    | returning v => exact .pure hev.descends hcompletion
    | completed => exact ih hev.descends

/-- The checks before a call allocate nothing. -/
theorem call_orderly (settings : Settings) (hm : m.Descends L) (paren : Token) {callee : Value}
    (hcallee : L.Knows callee) {arguments : List Value} (harguments : ∀ v ∈ arguments, L.Knows v) :
    Eval.Orderly (fun check => (checked check).call settings paren callee arguments)
      (plain.call settings paren callee arguments) Lineage.Knows L m := by
  unfold call
  split
  · exact .fail hm paren fun x h => by cases h
  · split
    · exact (Value.call_orderly (executeAll_orderly hrun) settings hm hcallee harguments).overflowAt
    · exact .fail hm paren fun x h => by cases h

/-- An expression lengthens the lineage by the cells that it allocates, and its value is known there. Checks along the
way only see machines that descend from the lineage. -/
theorem evaluateNode_orderly (settings : Settings) (hm : m.Descends L) (e : Expr Hops) :
    Eval.Orderly (fun check => evaluateNode settings (checked check) e) (evaluateNode settings plain e)
      Lineage.Knows L m := by
  -- what is known of an earlier value stays known in the lineage that a later part ends with
  cases e with
  | assign target value =>
    refine (hrun.evaluate value hm).bind fun v L₁ m₁ hev hv => ?_
    refine (assign_orderly hev.descends target hv).bind fun _ L₂ m₂ hev' _ => ?_
    exact .pure hev'.descends (hv.mono hev'.kept)
  | binary left operator right =>
    refine (hrun.evaluate left hm).bind fun l L₁ m₁ hev _ => ?_
    refine (hrun.evaluate right hev.descends).bind fun r L₂ m₂ hev' _ => ?_
    exact .binary hev'.descends operator l r
  | call callee paren arguments =>
    refine (hrun.evaluate callee hm).bind fun f L₁ m₁ hev hf => ?_
    refine (evaluateAll_orderly hrun hev.descends arguments).bind fun vs L₂ m₂ hev' hvs => ?_
    exact call_orderly hrun settings hev'.descends paren (hf.mono hev'.kept) hvs
  | get object name =>
    refine (hrun.evaluate object hm).bind fun v L₁ m₁ hev hv => ?_
    cases v with
    | object i => exact Instance.get_orderly hev.descends hv name
    | _ => exact .fail hev.descends name fun x h => by cases h
  | grouping inner => exact hrun.evaluate inner hm
  | literal value =>
    refine .pure hm ?_
    cases value <;> trivial
  | logical left operator right =>
    refine (hrun.evaluate left hm).bind fun l L₁ m₁ hev hl => ?_
    split
    · exact .pure hev.descends hl
    · exact hrun.evaluate right hev.descends
  | set object name value =>
    refine (hrun.evaluate object hm).bind fun o L₁ m₁ hev _ => ?_
    cases o with
    | object i =>
      refine (hrun.evaluate value hev.descends).bind fun v L₂ m₂ hev' hv => ?_
      refine (Orderly.setField hev'.descends hv _ _).bind fun _ L₃ m₃ hev'' _ => ?_
      exact .pure hev''.descends (hv.mono hev''.kept)
    | _ => exact .fail hev.descends name fun x h => by cases h
  | super keyword method => exact superMethod_orderly hm keyword method
  | this keyword => exact lookUp_orderly hm keyword
  | unary operator right =>
    exact (hrun.evaluate right hm).bind fun r L₁ m₁ hev _ => .unary hev.descends operator r
  | «variable» reference => exact lookUp_orderly hm reference
  | unknown => exact .fault hm _

/-- By induction on the bound on rounds. -/
theorem repeatWhile_orderly (hm : m.Descends L) (condition : Expr Hops) (body : Stmt Hops) (rounds : Nat) :
    Eval.Orderly
      (fun check =>
        repeatWhile (Value.isTruthy <$> (checked check).evaluate condition) ((checked check).execute body) rounds)
      (repeatWhile (Value.isTruthy <$> plain.evaluate condition) (plain.execute body) rounds)
      (fun L' c => c.Known L') L m := by
  -- the invariant is that the machine descends from its lineage; running out of rounds misses no name
  induction rounds generalizing L m with
  | zero =>
    refine .stop hm ?_
    rintro name ⟨token, hmisses⟩
    cases hmisses
  | succ rounds ih =>
    have htest : Eval.Orderly (fun check => Value.isTruthy <$> (checked check).evaluate condition)
        (Value.isTruthy <$> plain.evaluate condition) (fun _ _ => True) L m :=
      (hrun.evaluate condition hm).map fun _ _ _ _ _ => trivial
    refine htest.bind fun b L₁ m₁ hev _ => ?_
    cases b with
    | false => exact .pure hev.descends trivial
    | true =>
      refine (hrun.execute body hev.descends).bind fun completion L₂ m₂ hev' hcompletion => ?_
      cases completion with
      | returning v => exact .pure hev'.descends hcompletion
      | completed => exact ih hev'.descends

/-- A statement lengthens the lineage, and a value that it returns is known there. -/
theorem executeNode_orderly (settings : Settings) (hm : m.Descends L) (s : Stmt Hops) :
    Eval.Orderly (fun check => executeNode settings (checked check) s) (executeNode settings plain s)
      (fun L' c => c.Known L') L m := by
  -- only a block opens a frame; it is younger than the frame it stands in, as the lineage asks for
  cases s with
  | block body =>
    have hvars : ∀ name v, Bindings.get? ([] : Bindings Value) name = some v → L.Knows v :=
      fun name v hv => by cases hv
    refine (Orderly.allocFrame hm hm.environment hvars).bind fun frame L₁ m₁ hev hframe => Orderly.get ?_
    have hinside : Machine.Descends L₁ { m₁ with environment := frame :: m₁.environment } := by
      refine ⟨hev.descends.heap, ?_⟩
      rw [hev.environment]
      exact hframe
    exact Orderly.within hev.descends (executeAll_orderly hrun body hinside)
  | expression value => exact (hrun.evaluate value hm).bind fun _ L₁ m₁ hev _ => .pure hev.descends trivial
  | function declaration =>
    refine Orderly.get ?_
    refine (Closure.create_orderly hm declaration hm.environment false).bind fun f L₁ m₁ hev hf => ?_
    exact (Orderly.declare hev.descends _ hf).bind fun _ L₂ m₂ hev' _ => .pure hev'.descends trivial
  | «class» name heritage methods =>
    exact (declareClass_orderly hm name heritage methods).bind fun _ L₁ m₁ hev _ => .pure hev.descends trivial
  | «if» condition thenBranch elseBranch =>
    refine (hrun.evaluate condition hm).bind fun v L₁ m₁ hev _ => ?_
    split
    · exact hrun.execute thenBranch hev.descends
    · cases elseBranch with
      | none => exact .pure hev.descends trivial
      | some s => exact hrun.execute s hev.descends
  | print value =>
    refine (hrun.evaluate value hm).bind fun v L₁ m₁ hev _ => ?_
    exact (Orderly.print hev.descends _).bind fun _ L₂ m₂ hev' _ => .pure hev'.descends trivial
  | «return» keyword value =>
    exact (evaluateOption_orderly hrun hm value).bind fun v L₁ m₁ hev hv => .pure hev.descends hv
  | var name initializer =>
    refine (evaluateOption_orderly hrun hm initializer).bind fun v L₁ m₁ hev hv => ?_
    exact (Orderly.declare hev.descends name hv).bind fun _ L₂ m₂ hev' _ => .pure hev'.descends trivial
  | «while» condition body => exact repeatWhile_orderly hrun hm condition body _
  | unknown => exact .fault hm _

end

end Runner

/-! ## Every depth

The lineage of a run is put together from those of its parts. -/

/-- By induction on the depth; the check is made before each node. -/
theorem nested_orderly (settings : Settings) (n : Nat) :
    Runner.Orderly (fun check => ⟨evaluateChecked settings check n, executeChecked settings check n⟩)
      ⟨evaluateNested settings n, executeNested settings n⟩ := by
  induction n with
  | zero =>
    have hdeep : ∀ {m : Machine} name, Stop.tooDeep.Misses name → ¬ m.heap.Binds 0 name := by
      rintro m name ⟨token, hmisses⟩
      cases hmisses
    exact ⟨fun _ _ _ hm => .stop hm hdeep, fun _ _ _ hm => .stop hm hdeep⟩
  | succ n ih =>
    exact ⟨fun e _ _ hm => .ensuring hm (Runner.evaluateNode_orderly ih settings hm e),
      fun s _ _ hm => .ensuring hm (Runner.executeNode_orderly ih settings hm s)⟩

/-- A whole program, whatever it stops for. -/
theorem Machine.run_orderly (settings : Settings) (program : List (Stmt Hops)) {L : Lineage} {m : Machine}
    (hm : m.Descends L) :
    ∃ L', m.Evolves L L' (m.run settings program).2 ∧
      (∀ stop ∈ (m.run settings program).1, ∀ name, stop.Misses name →
        ¬ (m.run settings program).2.heap.Binds 0 name) ∧
      ∀ check : Machine → Bool,
        (∀ m', m'.During L' m.heap (m.run settings program).2.heap → check m' = true) →
          m.runChecked settings check program = m.run settings program := by
  -- both runs are runs of the same program, one with checks; what it stops for is read off the result
  have horderly : Eval.Orderly (fun check => (settings.checker check).executeAll program)
      (settings.runner.executeAll program) (fun L' c => c.Known L') L m :=
    Runner.executeAll_orderly (nested_orderly settings settings.nesting) program hm
  obtain ⟨L', hev, hpost, hcheck⟩ := horderly
  unfold Machine.runChecked Machine.run
  revert hev hpost hcheck
  rcases settings.runner.executeAll program m with ⟨stop | completion, m'⟩
  · intro hev hpost hcheck
    refine ⟨L', hev, fun stop' hstop => ?_, fun check hall => ?_⟩
    · cases hstop
      exact hpost
    · rw [show (settings.checker check).executeAll program m = _ from hcheck check hall]
  · intro hev hpost hcheck
    refine ⟨L', hev, fun stop' hstop => ?_, fun check hall => ?_⟩
    · cases hstop
    · rw [show (settings.checker check).executeAll program m = _ from hcheck check hall]

end LoxLang
