import LoxLang.Proofs.Run.Sound

/-!
# No run goes wrong

* **`Runner.evaluateNode_sound`**, **`Runner.executeNode_sound`** — the rules for expressions and statements keep
  the invariant if the runs of the parts do.
* **`Settings.executeAll_sound`** — so does every run at every depth of nesting.

The induction is on the depth of nesting. One step of it knows nothing of the tree but that it fits its scopes.

Each lemma is about a watched run and the plain one at once. What the watched one checks is thereby shown to hold, as
the two would otherwise differ.
-/

namespace LoxLang

/-- What is known of a result of statements: a value that is returned is valid. -/
def Completion.Valid (h : Heap) : Completion → Prop
  | .completed => True
  | .returning v => v.Valid h

/-- A runner under watch and a plain one agree wherever a tree fits the scopes of the machine; an expression may
belong to the initializers that are `allowed`. A statement that completes leaves what it declares in the innermost
frame. -/
structure Runner.Sound (allowed : Option String → Prop) (watched plain : Runner) : Prop where
  evaluate : ∀ {e : Expr Hops} {S : Scopes} {pending : Option String} {m : Machine}, allowed pending → m.At S →
    e.Scoped false S pending →
    Eval.Sound (watched.evaluate e) (plain.evaluate e) (fun h v => v.Valid h) m
  execute : ∀ {s : Stmt Hops} {S : Scopes} {m : Machine}, m.At S → s.Scoped false S →
    Eval.Sound (watched.execute s) (plain.execute s)
      (fun h c => c.Valid h ∧ (c = .completed → m.environment.Fits h (S.declare s.declared))) m

/-- Two ways to run bodies agree wherever a body fits the scopes of the machine. -/
def BodyRunner.Sound (watched plain : BodyRunner) : Prop :=
  ∀ {ss : List (Stmt Hops)} {S : Scopes} {m : Machine}, m.At S → Stmt.AllScoped false S ss →
    Eval.Sound (watched ss) (plain ss) (fun h c => c.Valid h) m

open Eval

variable {m : Machine} {S : Scopes} {allowed : Option String → Prop} {watched plain : Runner}
  {wbody pbody : BodyRunner}

/-! ## Functions, classes and instances

A function is called in the environment that it was made in, with a frame for its parameters. That its body fits the
scopes there was shown when it was made and has stayed true while the heap grew. -/

namespace Closure

/-- To make a function is to allocate, and it keeps the declaration and the environment. -/
theorem create_sound (hgood : m.heap.Good) (declaration : FunDecl Hops) (env : Environment) (b : Bool) :
    Eval.Sound (create declaration env b) (create declaration env b)
      (fun _ f => f.declaration = declaration ∧ f.environment = env ∧ f.isInitializer = b) m :=
  (Sound.allocIdentity hgood).bind fun _ _ hlead _ => .pure hlead.good ⟨rfl, rfl, rfl⟩

/-- A method with a frame for `this` fits the scopes of its class and `this`. -/
theorem bind_sound (hgood : m.heap.Good) {f : Closure} (hf : f.IsMethod m.heap) {i : Instance}
    (hi : i.origin.Valid m.heap) :
    Eval.Sound (f.bind (.object i)) (f.bind (.object i))
      (fun h g => g.Valid h ∧ g.declaration = f.declaration) m := by
  -- the frame of a bound method has `this` alone, which is an instance
  have hvars : ∀ name v, Bindings.get? [("this", Value.object i)] name = some v → v.Suits m.heap name := by
    intro name v hv
    rw [Bindings.get?_singleton] at hv
    split at hv
    case isFalse => cases hv
    case isTrue hname =>
      cases hv
      subst hname
      exact ⟨hi, fun _ => ⟨i, rfl⟩, fun h => absurd h (by decide)⟩
  refine (Sound.allocFrame hgood hvars).bind fun frame m₁ hlead ⟨hframe, hbinds⟩ => ?_
  refine (create_sound hlead.good f.declaration (frame :: f.environment) f.isInitializer).mono ?_
  rintro m₂ hlead₂ g ⟨hdeclaration, henvironment, -⟩
  obtain ⟨S, hfits, hscoped⟩ := hf.mono (hlead.le.trans hlead₂.le)
  -- the scope of `this` stands between the method and what it was written in
  refine ⟨⟨["this"] :: S, ?_, by rw [hdeclaration]; exact hscoped, fun _ => ⟨S, rfl⟩⟩, hdeclaration⟩
  rw [henvironment]
  refine ⟨hlead₂.le.frames hframe, fun name hmem => ?_, hfits⟩
  rw [List.mem_singleton.mp hmem]
  exact hlead₂.le.bindings (hbinds "this" rfl)

/-- A call with as many arguments as there are parameters. -/
theorem call_sound (hbody : BodyRunner.Sound wbody pbody) (hgood : m.heap.Good) {f : Closure}
    (hf : f.Valid m.heap) {arguments : List Value} (hvalid : ∀ v ∈ arguments, v.Valid m.heap)
    (hlen : arguments.length = f.arity) :
    Eval.Sound (f.call wbody arguments) (f.call pbody arguments) (fun h v => v.Valid h) m := by
  obtain ⟨S, hfits, hscoped, hthis⟩ := hf
  obtain ⟨address, ⟨name, params, body⟩, environment, isInitializer⟩ := f
  obtain ⟨-, hnames, hbodyScoped⟩ := hscoped
  have hlen' : arguments.length = (params.map (·.lexeme)).length := by
    rw [List.length_map]
    exact hlen
  -- an argument is found under the name of its parameter
  have hvars : ∀ name v, (Bindings.ofLists (params.map (·.lexeme)) arguments).get? name = some v →
      v.Suits m.heap name := by
    intro name v hv
    obtain ⟨hname, hmem⟩ := Bindings.mem_of_get?_ofLists hv
    obtain ⟨p, hp, rfl⟩ := List.mem_map.mp hname
    exact (hvalid v hmem).suits (hnames p hp)
  refine (Sound.allocFrame hgood hvars).bind fun frame m₁ hlead ⟨hframe, hbinds⟩ => ?_
  have hat : Machine.At { m₁ with environment := frame :: environment }
      ((params.map (·.lexeme)).reverse :: S) := by
    refine ⟨hlead.good, hframe, fun name hmem => ?_, hfits.mono hlead.le⟩
    exact hbinds name (Bindings.isSome_get?_ofLists hlen' (List.mem_reverse.mp hmem))
  refine (hbody hat hbodyScoped).within.bind fun completion m₂ hlead₂ hcompletion => ?_
  -- an initializer gives its instance, whatever its body ends with
  cases isInitializer with
  | true =>
    obtain ⟨S', rfl⟩ := hthis rfl
    have hinnermost : Scopes.hops (["this"] :: S') "this" = some 0 := rfl
    obtain ⟨a, ha, hbound⟩ := (hfits.mono (hlead.le.trans hlead₂.le)).binds hinnermost
    exact (Sound.readAt hlead₂.good ha hbound).mono fun _ _ _ hv => hv.valid
  | false =>
    cases completion with
    | returning v => exact .pure hlead₂.good hcompletion
    | completed => exact .pure hlead₂.good trivial

end Closure

/-- The new instance is of a valid class, and its initializer is called with it as `this`. -/
theorem Class.instantiate_sound (hbody : BodyRunner.Sound wbody pbody) (hgood : m.heap.Good) {c : Class}
    (hc : c.Valid m.heap) {arguments : List Value} (hvalid : ∀ v ∈ arguments, v.Valid m.heap)
    (hlen : arguments.length = c.arity) :
    Eval.Sound (c.instantiate wbody arguments) (c.instantiate pbody arguments) (fun h v => v.Valid h) m := by
  refine (Sound.alloc hgood (fun _ heq => by cases heq) fun _ heq => by cases heq; rfl).bind
    fun address m₁ hlead _ => ?_
  dsimp only
  cases hinit : c.initializer? with
  | none => exact .pure hlead.good (Class.Valid.mono hc hlead.le)
  | some f =>
    have hmethod : f.IsMethod m₁.heap := (Class.Valid.findMethod? hc hinit).mono hlead.le
    -- a class takes as many arguments as its initializer
    have harity : arguments.length = f.arity := by
      rw [hlen, Class.arity, hinit]
      rfl
    refine (Closure.bind_sound hlead.good hmethod (i := ⟨address, c⟩) (hc.mono hlead.le)).bind
      fun g m₂ hlead₂ ⟨hg, hdeclaration⟩ => ?_
    have hlead₂' := hlead.trans hlead₂
    have hcall := Closure.call_sound hbody hlead₂.good hg (fun v hv => (hvalid v hv).mono hlead₂'.le)
      (by rw [harity, Closure.arity, Closure.arity, hdeclaration])
    refine hcall.bind fun _ m₃ hlead₃ _ => .pure hlead₃.good ?_
    exact Class.Valid.mono hc (hlead₂'.trans hlead₃).le

namespace Instance

/-- A field is valid since the heap is good, and a bound method since the class is. -/
theorem get_sound (hgood : m.heap.Good) {i : Instance} (hi : i.origin.Valid m.heap) (name : Token) :
    Eval.Sound (i.get name) (i.get name) (fun h v => v.Valid h) m := by
  refine Sound.get ?_
  cases hfield : (m.heap.fields i.address).get? name.lexeme with
  | some v => exact .pure hgood (hgood.fields hfield)
  | none =>
    dsimp only
    cases hmethod : i.origin.findMethod? name.lexeme with
    | none => exact .fail hgood _ _
    | some f =>
      exact (Closure.bind_sound hgood (hi.findMethod? hmethod) hi).bind
        fun _ _ hlead hg => .pure hlead.good hg.1

end Instance

namespace Value

/-- A call with as many arguments as the value takes. -/
theorem call_sound (settings : Settings) (hbody : BodyRunner.Sound wbody pbody) (hgood : m.heap.Good)
    {callee : Value} (hcallee : callee.Valid m.heap) {arguments : List Value}
    (hvalid : ∀ v ∈ arguments, v.Valid m.heap) (harity : callee.arity? = some arguments.length) :
    Eval.Sound (callee.call settings wbody arguments) (callee.call settings pbody arguments)
      (fun h v => v.Valid h) m := by
  cases callee with
  | function f => exact Closure.call_sound hbody hgood hcallee hvalid (Option.some.inj harity).symm
  | clock => exact .readClock hgood settings
  | classValue c => exact Class.instantiate_sound hbody hgood hcallee hvalid (Option.some.inj harity).symm
  | nil | bool | number | string | object => cases harity

end Value

/-! ## Operators

Operands that are not of the right sort are mistakes. A fault would only come from an operator that the parser lets into
no tree. -/

theorem Eval.unary_sound (hgood : m.heap.Good) {operator : Token}
    (hoperator : operator.kind ∈ [.bang, .minus]) (right : Value) :
    Eval.Sound (unary operator right) (unary operator right) (fun h v => v.Valid h) m := by
  unfold unary
  rcases List.mem_cons.mp hoperator with hkind | hkind
  · rw [hkind]
    exact .pure hgood trivial
  · rw [List.mem_singleton.mp hkind]
    cases right with
    | number => exact .pure hgood trivial
    | _ => exact .fail hgood _ _

theorem Eval.add_sound (hgood : m.heap.Good) (operator : Token) (left right : Value) :
    Eval.Sound (add operator left right) (add operator left right) (fun h v => v.Valid h) m := by
  unfold add
  split
  · exact .pure hgood trivial
  · exact .pure hgood trivial
  · exact .fail hgood _ _

/-- The operators that take two numbers. -/
theorem Eval.arithmetic_sound (hgood : m.heap.Good) {operator : Token}
    (hoperator : operator.kind ∈ [.greater, .greaterEqual, .less, .lessEqual, .minus, .slash, .star])
    (x y : Float) :
    Eval.Sound (arithmetic operator x y) (arithmetic operator x y) (fun h v => v.Valid h) m := by
  unfold arithmetic
  simp only [List.mem_cons, List.not_mem_nil, or_false] at hoperator
  rcases hoperator with hkind | hkind | hkind | hkind | hkind | hkind | hkind <;> rw [hkind] <;>
    exact .pure hgood trivial

/-- A binary operator gets by with any two values: those that do not fit are reported at the operator. -/
theorem Eval.binary_sound (hgood : m.heap.Good) {operator : Token}
    (hoperator : operator.kind ∈ [.bangEqual, .equalEqual, .greater, .greaterEqual, .less, .lessEqual,
      .minus, .plus, .slash, .star])
    (left right : Value) :
    Eval.Sound (binary operator left right) (binary operator left right) (fun h v => v.Valid h) m := by
  unfold binary
  split
  · exact .pure hgood trivial
  · exact .pure hgood trivial
  · exact add_sound hgood operator left right
  · -- What is left are the operators that take only numbers.
    have hrest : operator.kind ∈ [.greater, .greaterEqual, .less, .lessEqual, .minus, .slash, .star] := by
      simp only [List.mem_cons, List.not_mem_nil, or_false] at hoperator ⊢
      tauto
    split
    · exact arithmetic_sound hgood hrest _ _
    · exact .fail hgood _ _

/-! ## Expressions

A reference has been resolved to the distance that its name has in the scopes, and the environment fits the scopes: so
the name is bound at that distance. -/

namespace Runner

/-- A reference whose note is the distance to its name. -/
theorem lookUp_sound (h : m.At S) {reference : Reference Hops}
    (hnote : reference.note = S.hops reference.name.lexeme) :
    Eval.Sound (lookUp reference) (lookUp reference) (fun h v => v.Valid h) m := by
  unfold lookUp
  cases hd : reference.note with
  | none => exact .read h.good _ _
  | some d =>
    obtain ⟨a, ha, hbinds⟩ := h.fits.binds (hnote.symm.trans hd)
    exact Sound.get ((Sound.readAt h.good ha hbinds).mono fun _ _ _ hv => hv.valid)

/-- The scopes may have one name more than the frames, that of a variable within its own initializer. An assignment to
it binds the name. -/
theorem assign_sound (h : m.At S) {target : Reference Hops} {names : List String}
    (hnote : target.note = (S.declare names).hops target.name.lexeme) (hname : target.name.IsName)
    {v : Value} (hv : v.Valid m.heap) :
    Eval.Sound (assign target v) (assign target v) (fun _ _ => True) m := by
  unfold assign
  cases hd : target.note with
  | none => exact .assign h.good (hv.suits hname)
  | some d =>
    have hlt : d < S.length := by
      rw [← Scopes.length_declare S names]
      exact Scopes.lt_length_of_hops (hnote.symm.trans hd)
    obtain ⟨a, ha, -⟩ := h.fits.exists_frame hlt
    exact Sound.get (Sound.assignAt h.good ha (hv.suits hname))

/-- Arguments from left to right; those that have been evaluated stay valid while the heap grows. -/
theorem evaluateAll_sound (hrun : Runner.Sound allowed watched plain) {pending : Option String}
    (hpending : allowed pending) {es : List (Expr Hops)} (h : m.At S)
    (hscoped : Expr.Scoped.all false S pending es) :
    Eval.Sound (watched.evaluateAll es) (plain.evaluateAll es)
      (fun h vs => ∀ v ∈ vs, v.Valid h) m := by
  induction es generalizing m with
  | nil => exact .pure h.good fun _ hv => by cases hv
  | cons e es ih =>
    obtain ⟨he, hes⟩ := hscoped
    refine (hrun.evaluate hpending h he).bind fun v m₁ hlead hv => ?_
    refine (ih (h.lead hlead) hes).bind fun vs m₂ hlead₂ hvs => .pure hlead₂.good ?_
    intro w hw
    rcases List.mem_cons.mp hw with rfl | hmem
    · exact hv.mono hlead₂.le
    · exact hvs w hmem

/-- Statements in succession, each in the scopes that those before it have declared. -/
theorem executeAll_sound (hrun : Runner.Sound allowed watched plain) :
    BodyRunner.Sound watched.executeAll plain.executeAll := by
  intro ss
  induction ss with
  | nil => exact fun h _ => .pure h.good trivial
  | cons s ss ih =>
    intro S m h hscoped
    obtain ⟨hs, hss⟩ := hscoped
    refine (hrun.execute h hs).bind fun completion m₁ hlead ⟨hvalid, hfits⟩ => ?_
    cases completion with
    | returning v => exact .pure hlead.good hvalid
    | completed =>
      -- the statements behind stand in the scopes as the first one has left them
      refine ih ⟨hlead.good, ?_⟩ hss
      rw [hlead.environment]
      exact hfits rfl

/-- Callee and number of arguments are checked, so that no call meets a fault. -/
theorem call_sound (settings : Settings) (hrun : Runner.Sound allowed watched plain) (hgood : m.heap.Good)
    (paren : Token) {callee : Value} (hcallee : callee.Valid m.heap) {arguments : List Value}
    (hvalid : ∀ v ∈ arguments, v.Valid m.heap) :
    Eval.Sound (watched.call settings paren callee arguments) (plain.call settings paren callee arguments)
      (fun h v => v.Valid h) m := by
  unfold call
  cases harity : callee.arity? with
  | none => exact .fail hgood _ _
  | some n =>
    dsimp only
    by_cases hn : arguments.length = n
    · rw [if_pos hn, if_pos hn]
      rw [← hn] at harity
      exact (Value.call_sound settings (executeAll_sound hrun) hgood hcallee hvalid harity).overflowAt
    · rw [if_neg hn, if_neg hn]
      exact .fail hgood _ _

/-- `super` and `this` are found in neighbouring frames, with a class and an instance in them. -/
theorem superMethod_sound (h : m.At S) {keyword : Reference Hops} {n : Nat}
    (hnote : keyword.note = some (n + 1)) (hsuper : S.hops "super" = some (n + 1))
    (hthis : S.hops "this" = some n) (method : Token) :
    Eval.Sound (superMethod keyword method) (superMethod keyword method) (fun h v => v.Valid h) m := by
  unfold superMethod
  rw [hnote]
  refine Sound.get ?_
  obtain ⟨a, ha, hbound⟩ := h.fits.binds hsuper
  refine (Sound.readAt h.good ha hbound).bind fun superclass m₁ hlead hsuperclass => ?_
  obtain ⟨b, hb, hbound'⟩ := h.fits.binds hthis
  refine (Sound.readAt hlead.good hb (hlead.le.bindings hbound')).bind fun this m₂ hlead₂ hinstance => ?_
  -- what these words are bound to is a class and an instance
  obtain ⟨c, rfl⟩ := hsuperclass.super rfl
  obtain ⟨i, rfl⟩ := hinstance.this rfl
  dsimp only
  cases hmethod : c.findMethod? method.lexeme with
  | none => exact .fail hlead₂.good _ _
  | some f =>
    have hc : c.Valid m₂.heap := Class.Valid.mono hsuperclass.valid hlead₂.le
    exact (Closure.bind_sound hlead₂.good (hc.findMethod? hmethod) hinstance.valid).bind
      fun _ _ hlead₃ hg => .pure hlead₃.good hg.1

/-- A scoped expression neither trips over a missing variable nor leaves the invariant, and its value is valid. -/
theorem evaluateNode_sound (settings : Settings) (hrun : Runner.Sound allowed watched plain)
    {pending : Option String} (hpending : allowed pending) (h : m.At S) {e : Expr Hops}
    (hscoped : e.Scoped false S pending) :
    Eval.Sound (evaluateNode settings watched e) (evaluateNode settings plain e) (fun h v => v.Valid h) m := by
  -- each operand is run on the machine that the last one has left, where the scopes are still described
  cases e with
  | assign target value =>
    obtain ⟨hnote, hname, -, hvalue⟩ := hscoped
    refine (hrun.evaluate hpending h hvalue).bind fun v m₁ hlead hv => ?_
    exact (assign_sound (h.lead hlead) hnote hname hv).bind
      fun _ _ hlead₂ _ => .pure hlead₂.good (hv.mono hlead₂.le)
  | binary left operator right =>
    obtain ⟨hleft, hoperator, hright⟩ := hscoped
    refine (hrun.evaluate hpending h hleft).bind fun l m₁ hlead _ => ?_
    exact (hrun.evaluate hpending (h.lead hlead) hright).bind
      fun r _ hlead₂ _ => binary_sound hlead₂.good hoperator l r
  | call callee paren arguments =>
    obtain ⟨hcallee, harguments⟩ := hscoped
    refine (hrun.evaluate hpending h hcallee).bind fun f m₁ hlead hf => ?_
    exact (evaluateAll_sound hrun hpending (h.lead hlead) harguments).bind
      fun vs _ hlead₂ hvs => call_sound settings hrun hlead₂.good paren (hf.mono hlead₂.le) hvs
  | get object name =>
    refine (hrun.evaluate (e := object) hpending h hscoped).bind fun v m₁ hlead hv => ?_
    cases v with
    | object i => exact Instance.get_sound hlead.good hv name
    | _ => exact .fail hlead.good _ _
  | grouping inner => exact hrun.evaluate (e := inner) hpending h hscoped
  | literal value =>
    refine .pure h.good ?_
    cases value <;> trivial
  | logical left operator right =>
    obtain ⟨hleft, hright⟩ := hscoped
    refine (hrun.evaluate hpending h hleft).bind fun l m₁ hlead hl => ?_
    by_cases htruthy : l.isTruthy = (operator.kind == .or)
    · rw [if_pos htruthy, if_pos htruthy]
      exact .pure hlead.good hl
    · rw [if_neg htruthy, if_neg htruthy]
      exact hrun.evaluate hpending (h.lead hlead) hright
  | set object name value =>
    obtain ⟨hobject, hvalue⟩ := hscoped
    refine (hrun.evaluate hpending h hobject).bind fun o m₁ hlead _ => ?_
    cases o with
    | object i =>
      refine (hrun.evaluate hpending (h.lead hlead) hvalue).bind fun v m₂ hlead₂ hv => ?_
      exact (Sound.setField hlead₂.good hv i.address name.lexeme).bind
        fun _ _ hlead₃ _ => .pure hlead₃.good (hv.mono hlead₃.le)
    | _ => exact .fail hlead.good _ _
  | super keyword method =>
    obtain ⟨n, hnote, hsuper, hthis⟩ := hscoped
    exact superMethod_sound h hnote hsuper hthis method
  | this keyword =>
    obtain ⟨hlexeme, n, hnote, hthis⟩ := hscoped
    exact lookUp_sound h (by rw [hnote, hlexeme, hthis])
  | unary operator right =>
    obtain ⟨hoperator, hright⟩ := hscoped
    exact (hrun.evaluate hpending h hright).bind fun v _ hlead _ => unary_sound hlead.good hoperator v
  | «variable» reference => exact lookUp_sound h hscoped
  | unknown => exact hscoped.elim

/-! ## Statements

A declaration makes the frame bind what the scope declares. All other statements leave the scopes as they are. -/

theorem evaluateOption_sound (hrun : Runner.Sound allowed watched plain) {pending : Option String}
    (hpending : allowed pending) (h : m.At S)
    {e : Option (Expr Hops)} (hscoped : Expr.OptionScoped false S pending e) :
    Eval.Sound (watched.evaluateOption e) (plain.evaluateOption e) (fun h v => v.Valid h) m := by
  cases e with
  | none => exact .pure h.good trivial
  | some e => exact hrun.evaluate hpending h hscoped

/-- A loop whose body declares nothing keeps the scopes as they are. -/
theorem repeatWhile_sound {wtest ptest : Eval Bool} {wbody pbody : Eval Completion}
    (htest : ∀ {m : Machine}, m.At S → Eval.Sound wtest ptest (fun _ _ => True) m)
    (hbody : ∀ {m : Machine}, m.At S → Eval.Sound wbody pbody (fun h c => c.Valid h) m)
    (rounds : Nat) (h : m.At S) :
    Eval.Sound (repeatWhile wtest wbody rounds) (repeatWhile ptest pbody rounds) (fun h c => c.Valid h) m := by
  induction rounds generalizing m with
  | zero => exact .stop h.good fun _ heq => by cases heq
  | succ rounds ih =>
    refine (htest h).bind fun b m₁ hlead _ => ?_
    cases b with
    | false => exact .pure hlead.good trivial
    | true =>
      refine (hbody (h.lead hlead)).bind fun completion m₂ hlead₂ hvalid => ?_
      cases completion with
      | returning v => exact .pure hlead₂.good hvalid
      | completed => exact ih (h.lead (hlead.trans hlead₂))

/-- The value of the name is looked at, and is a class or a mistake. -/
theorem superclass_sound (h : m.At S) {reference : Reference Hops}
    (hnote : reference.note = S.hops reference.name.lexeme) :
    Eval.Sound (superclass reference) (superclass reference) (fun h c => c.Valid h) m := by
  refine (lookUp_sound h hnote).bind fun v m₁ hlead hv => ?_
  cases v with
  | classValue c => exact .pure hlead.good hv
  | _ => exact .fail hlead.good _ _

/-- Each method fits the scopes around its class and `this`. -/
theorem createMethods_sound {env : Environment} {ds : List (FunDecl Hops)} {methods : Bindings Closure}
    (hgood : m.heap.Good) (hfits : env.Fits m.heap S) (hscoped : FunDecl.AllScoped false (["this"] :: S) ds)
    (hmethods : ∀ name f, methods.get? name = some f → f.IsMethod m.heap) :
    Eval.Sound (createMethods env ds methods) (createMethods env ds methods)
      (fun h methods => ∀ name f, methods.get? name = some f → f.IsMethod h) m := by
  induction ds generalizing m methods with
  | nil => exact .pure hgood hmethods
  | cons d ds ih =>
    obtain ⟨hd, hds⟩ := hscoped
    refine (Closure.create_sound hgood d env _).bind fun f m₁ hlead ⟨hdeclaration, henvironment, _⟩ => ?_
    refine ih hlead.good (hfits.mono hlead.le) hds fun name g hg => ?_
    rw [Bindings.get?_put] at hg
    split at hg
    -- a method of the same name as an earlier one takes its place
    case isTrue =>
      cases hg
      exact ⟨S, by rw [henvironment]; exact hfits.mono hlead.le, by rw [hdeclaration]; exact hd⟩
    case isFalse => exact (hmethods name g hg).mono hlead.le

/-- The last steps of a class declaration: what is declared already stays declared. -/
theorem defineClass_sound {env : Environment} {name : Token} {parent : Option Class}
    {ds : List (FunDecl Hops)} {inner : Environment} {S' : Scopes} (h : m.At S)
    (hinner : inner.Fits m.heap S') (hscoped : FunDecl.AllScoped false (["this"] :: S') ds)
    (hparent : ∀ c ∈ parent, c.Valid m.heap) (hname : name.IsName) :
    let act : Eval Unit := do
      let methods ← createMethods inner ds []
      let own : ClassLayer := ⟨← Eval.alloc .identity, name.lexeme, methods⟩
      let inherited := parent.elim [] fun c => c.own :: c.inherited
      Eval.assign env name (.classValue ⟨own, inherited⟩)
    Eval.Sound act act (fun h _ => m.environment.Fits h S) m := by
  intro act
  have hnone : ∀ name f, Bindings.get? ([] : Bindings Closure) name = some f → f.IsMethod m.heap := by
    intro name f heq
    cases heq
  have hcreate := createMethods_sound h.good hinner hscoped hnone
  refine hcreate.bind fun methods m₁ hlead hmethods => ?_
  refine (Sound.allocIdentity hlead.good).bind fun address m₂ hlead₂ _ => ?_
  -- the class is valid because its methods are and because the superclass is
  have hvalid : Value.Valid m₂.heap (.classValue ⟨⟨address, name.lexeme, methods⟩,
      parent.elim [] fun c => c.own :: c.inherited⟩) :=
    Class.Valid.extend (fun n f hf => (hmethods n f hf).mono hlead₂.le)
      fun c hc => (hparent c hc).mono (hlead.trans hlead₂).le
  refine (Sound.assign hlead₂.good (hvalid.suits hname)).mono fun m₃ hlead₃ _ _ => ?_
  exact h.fits.mono (hlead.trans (hlead₂.trans hlead₃)).le

/-- The name is declared first, so that methods find it; then come the frame of `super`, the methods and the class
itself. -/
theorem declareClass_sound (h : m.At S) {name : Token} {heritage : Option (Reference Hops)}
    {methods : List (FunDecl Hops)} (hscoped : (Stmt.class name heritage methods).Scoped false S) :
    Eval.Sound (declareClass name heritage methods) (declareClass name heritage methods)
      (fun h _ => m.environment.Fits h (S.declare [name.lexeme])) m := by
  obtain ⟨-, hname, hmethods⟩ := hscoped
  have hnil : ∀ {h : Heap}, Value.Suits h name.lexeme .nil := Value.Valid.suits trivial hname
  unfold declareClass
  dsimp only
  cases heritage with
  | none =>
    rw [pure_bind]
    refine (Sound.declare h fun _ _ => hnil).bind fun _ m₁ hlead hfits => Sound.get ?_
    rw [← hlead.environment] at hfits ⊢
    rw [pure_bind]
    exact defineClass_sound ⟨hlead.good, hfits⟩ hfits hmethods (fun _ hc => by cases hc) hname
  | some reference =>
    obtain ⟨hnote, hmethods⟩ := hmethods
    have hsuper := (superclass_sound h hnote).map (f := some) (Q := fun h parent => ∃ c, parent = some c ∧ c.Valid h)
      fun c _ _ hc => ⟨c, rfl, hc⟩
    refine hsuper.bind fun parent m₁ hlead hparent => ?_
    obtain ⟨c, rfl, hc⟩ := hparent
    refine (Sound.declare (h.lead hlead) fun _ _ => hnil).bind fun _ m₂ hlead₂ hfits => Sound.get ?_
    rw [hlead.environment] at hfits
    -- the frame around the methods has `super` alone, which is a class
    have hvars : ∀ n v, Bindings.get? [("super", Value.classValue c)] n = some v → v.Suits m₂.heap n := by
      intro n v hv
      rw [Bindings.get?_singleton] at hv
      split at hv
      case isFalse => cases hv
      case isTrue hn =>
        cases hv
        subst hn
        exact ⟨hc.mono hlead₂.le, fun h => absurd h (by decide), fun _ => ⟨c, rfl⟩⟩
    have hlead' := hlead.trans hlead₂
    have hframe := (Sound.allocFrame hlead₂.good hvars).map (f := (· :: m₂.environment))
      (Q := fun h env => Environment.Fits h env (["super"] :: S.declare [name.lexeme])) ?_
    · refine hframe.bind fun inner m₃ hlead₃ hinner => ?_
      have hlead₃' := hlead'.trans hlead₃
      have hfits₃ := hfits.mono hlead₃.le
      rw [← hlead₃'.environment] at hfits₃ ⊢
      refine defineClass_sound ⟨hlead₃.good, hfits₃⟩ hinner hmethods (fun c' hc' => ?_) hname
      cases hc'
      exact hc.mono (hlead₂.trans hlead₃).le
    · rintro a m₃ hlead₃ ⟨hframe, hbinds⟩
      refine ⟨hframe, fun n hn => ?_, ?_⟩
      · rw [List.mem_singleton.mp hn]
        exact hbinds "super" rfl
      · rw [hlead'.environment]
        exact hfits.mono hlead₃.le

/-- A scoped statement keeps the invariant. What it declares is in the innermost frame behind it. -/
theorem executeNode_sound (settings : Settings) (hrun : Runner.Sound allowed watched plain)
    (hnone : allowed none) {s : Stmt Hops}
    (hinitialized : ∀ name initializer, s = .var name initializer → allowed (some name.lexeme)) (h : m.At S)
    (hscoped : s.Scoped false S) :
    Eval.Sound (executeNode settings watched s) (executeNode settings plain s)
      (fun h c => c.Valid h ∧ (c = .completed → m.environment.Fits h (S.declare s.declared))) m := by
  -- A statement that declares nothing leaves the scopes as they are.
  have hkeep : ∀ {m' : Machine}, m.Leads m' → m.environment.Fits m'.heap (S.declare []) := by
    intro m' hlead
    rw [Scopes.declare_nil_right]
    exact h.fits.mono hlead.le
  cases s with
  | block body =>
    have hempty : ∀ name v, Bindings.get? ([] : Bindings Value) name = some v → v.Suits m.heap name := by
      intro name v hv
      cases hv
    have hframe := Sound.allocFrame h.good hempty
    refine hframe.bind fun frame m₁ hlead ⟨hframe, _⟩ => Sound.get ?_
    have hat : Machine.At { m₁ with environment := frame :: m₁.environment } ([] :: S) :=
      ⟨hlead.good, hframe, fun _ hmem => (List.not_mem_nil hmem).elim, (h.lead hlead).fits⟩
    exact (executeAll_sound hrun hat hscoped).within.mono
      fun m₂ hlead₂ _ hvalid => ⟨hvalid, fun _ => hkeep (hlead.trans hlead₂)⟩
  | expression value =>
    exact (hrun.evaluate hnone h hscoped).bind
      fun _ _ hlead _ => .pure hlead.good ⟨trivial, fun _ => hkeep hlead⟩
  | function declaration =>
    obtain ⟨-, hname, hdeclared⟩ := hscoped
    refine Sound.get ((Closure.create_sound h.good declaration m.environment false).bind
      fun f m₁ hlead ⟨hdeclaration, henvironment, hinitializer⟩ => ?_)
    have hvalid : ∀ {h'}, m₁.heap.Le h' →
        m₁.environment.Fits h' (S.declare [declaration.name.lexeme]) →
        Value.Suits h' declaration.name.lexeme (.function f) := by
      intro h' _ hfits
      refine Value.Valid.suits ⟨_, ?_, by rw [hdeclaration]; exact hdeclared, ?_⟩ hname
      · rw [henvironment, ← hlead.environment]
        exact hfits
      · rw [hinitializer]
        exact fun heq => by cases heq
    refine (Sound.declare (h.lead hlead) hvalid).bind fun _ m₂ hlead₂ hfits => ?_
    refine .pure hlead₂.good ⟨trivial, fun _ => ?_⟩
    rw [← hlead.environment]
    exact hfits
  | «class» name heritage methods =>
    exact (declareClass_sound h hscoped).bind
      fun _ _ hlead hfits => .pure hlead.good ⟨trivial, fun _ => hfits⟩
  | «if» condition thenBranch elseBranch =>
    have hbranch : ∀ {s : Stmt Hops} {m₁ : Machine}, m.Leads m₁ → s.declared = [] → s.Scoped false S →
        Eval.Sound (watched.execute s) (plain.execute s)
          (fun h c => c.Valid h ∧ (c = .completed → m.environment.Fits h (S.declare []))) m₁ := by
      intro s m₁ hlead hdeclared hs
      refine (hrun.execute (h.lead hlead) hs).mono fun m₂ hlead₂ c hc => ⟨hc.1, fun _ => ?_⟩
      exact hkeep (hlead.trans hlead₂)
    cases elseBranch with
    | none =>
      obtain ⟨hcondition, ⟨hdeclared, hthen⟩, -⟩ := hscoped
      refine (hrun.evaluate hnone h hcondition).bind fun v m₁ hlead _ => ?_
      rw [Stmt.declared, hdeclared]
      by_cases htruthy : v.isTruthy = true
      · rw [if_pos htruthy, if_pos htruthy]
        exact hbranch hlead hdeclared hthen
      · rw [if_neg htruthy, if_neg htruthy]
        exact .pure hlead.good ⟨trivial, fun _ => hkeep hlead⟩
    | some elseBranch =>
      obtain ⟨hcondition, ⟨hdeclared, hthen⟩, hdeclared', helse⟩ := hscoped
      refine (hrun.evaluate hnone h hcondition).bind fun v m₁ hlead _ => ?_
      rw [Stmt.declared, hdeclared, hdeclared']
      by_cases htruthy : v.isTruthy = true
      · rw [if_pos htruthy, if_pos htruthy]
        exact hbranch hlead hdeclared hthen
      · rw [if_neg htruthy, if_neg htruthy]
        exact hbranch hlead hdeclared' helse
  | print value =>
    refine (hrun.evaluate hnone h hscoped).bind fun v m₁ hlead _ => ?_
    exact (Sound.print hlead.good v.text).bind
      fun _ _ hlead₂ _ => .pure hlead₂.good ⟨trivial, fun _ => hkeep (hlead.trans hlead₂)⟩
  | «return» keyword value =>
    exact (evaluateOption_sound hrun hnone h hscoped).bind
      fun _ _ hlead hv => .pure hlead.good ⟨hv, fun heq => by cases heq⟩
  | var name initializer =>
    obtain ⟨-, hname, hinitializer⟩ := hscoped
    have hpending : allowed (if S.isEmpty then none else some name.lexeme) := by
      split
      · exact hnone
      · exact hinitialized name initializer rfl
    refine (evaluateOption_sound hrun hpending h hinitializer).bind fun v m₁ hlead hv => ?_
    refine (Sound.declare (h.lead hlead) fun hle _ => (hv.mono hle).suits hname).bind
      fun _ m₂ hlead₂ hfits => .pure hlead₂.good ⟨trivial, fun _ => ?_⟩
    rw [← hlead.environment]
    exact hfits
  | «while» condition body =>
    obtain ⟨hcondition, hdeclared, hbody⟩ := hscoped
    rw [Stmt.declared, hdeclared]
    refine (repeatWhile_sound (fun hat => (hrun.evaluate hnone hat hcondition).map fun _ _ _ _ => trivial)
      (fun hat => (hrun.execute hat hbody).mono fun _ _ _ hc => hc.1) settings.rounds h).mono ?_
    exact fun m₁ hlead c hc => ⟨hc, fun _ => hkeep hlead⟩
  | unknown => exact hscoped.elim

end Runner

/-! ## Every depth of nesting

The watched run checks at each node that its names are found. That these checks never fail follows from the fit of
scopes and environments, and so the watched runner can be put for the plain one at every depth. -/

/-- A node that fits its scopes finds what it refers to. -/
theorem Machine.At.find? (h : m.At S) {name : String} {d : Nat} (hd : S.hops name = some d) :
    ∃ v, m.find? d name = some v ∧ v.Suits m.heap name := by
  obtain ⟨a, ha, hbinds⟩ := h.fits.binds hd
  obtain ⟨v, hv⟩ := Option.isSome_iff_exists.mp hbinds
  refine ⟨v, ?_, h.good.vars hv⟩
  unfold Machine.find? Machine.frame?
  rw [ha, Option.bind_some, hbinds.isFrame.cell_eq]
  exact hv

/-- A resolved reference finds its name at its distance. -/
theorem Reference.findsName_of_hops (h : m.At S) {r : Reference Hops}
    (hnote : r.note = S.hops r.name.lexeme) : r.findsName m = true := by
  unfold findsName
  cases hd : r.note with
  | none => rfl
  | some d =>
    obtain ⟨v, hv, -⟩ := h.find? (hnote.symm.trans hd)
    simp only [Option.all_some, hv, Option.isSome_some]

/-- So do all references at the node of an expression. -/
theorem Expr.Scoped.finds (h : m.At S) {pending : Option String} {e : Expr Hops}
    (hscoped : e.Scoped false S pending) : e.finds m = true := by
  cases e with
  | «variable» reference => exact Reference.findsName_of_hops h hscoped
  | this keyword =>
    obtain ⟨hlexeme, n, hnote, hthis⟩ := hscoped
    have hfinds := Reference.findsName_of_hops h (r := keyword) (by rw [hnote, hlexeme, hthis])
    simp only [Expr.finds, hnote, Option.isSome_some, hfinds, Bool.and_self]
  | assign target value =>
    obtain ⟨hnote, -⟩ := hscoped
    refine (Option.all_eq_true _ _).mpr fun d hd => ?_
    -- an assignment only needs the frame: the variable may be one that is being initialized
    have hlt := Scopes.lt_length_of_hops (hnote.symm.trans hd)
    rw [Scopes.length_declare] at hlt
    obtain ⟨a, ha, hframe⟩ := h.fits.exists_frame hlt
    simp only [Machine.frame?, ha, Option.bind_some, hframe.cell_eq, Option.isSome_some]
  | super keyword method =>
    obtain ⟨n, hnote, hsuper, hthis⟩ := hscoped
    obtain ⟨v, hv, hclass⟩ := h.find? hsuper
    obtain ⟨w, hw, hobject⟩ := h.find? hthis
    obtain ⟨c, rfl⟩ := hclass.super rfl
    obtain ⟨i, rfl⟩ := hobject.this rfl
    simp only [Expr.finds, Reference.findsSuper, hnote, hv, hw]
  | _ => rfl

/-- And those at the node of a statement. -/
theorem Stmt.Scoped.finds (h : m.At S) {s : Stmt Hops} (hscoped : s.Scoped false S) : s.finds m = true := by
  cases s with
  | «class» name heritage methods =>
    cases heritage with
    | none => rfl
    | some r => exact Reference.findsName_of_hops h hscoped.2.2.1
  | _ => rfl

/-- Runs nested to any depth keep the invariant, under watch and without. -/
theorem sound_nested (settings : Settings) (n : Nat) :
    Runner.Sound (fun _ => True) ⟨evaluateWatched settings n, executeWatched settings n⟩
      ⟨evaluateNested settings n, executeNested settings n⟩ := by
  -- on the depth of nesting: at each depth the rules are sound if what they call is
  induction n with
  | zero =>
    constructor
    · exact fun _ h _ => .stop h.good fun _ heq => by cases heq
    · exact fun h _ => .stop h.good fun _ heq => by cases heq
  | succ n ih =>
    constructor
    · intro e S pending m hpending h hscoped
      exact .ensuring (hscoped.finds h) (Runner.evaluateNode_sound settings ih hpending h hscoped)
    · intro s S m h hscoped
      exact .ensuring (hscoped.finds h)
        (Runner.executeNode_sound settings ih trivial (fun _ _ _ => trivial) h hscoped)

/-- Whole programs keep the invariant. -/
theorem Settings.executeAll_sound (settings : Settings) :
    BodyRunner.Sound settings.watcher.executeAll settings.runner.executeAll :=
  Runner.executeAll_sound (sound_nested settings settings.nesting)

end LoxLang
