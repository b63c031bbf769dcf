import LoxLang.Proofs.Loops.Tandem
import LoxLang.Proofs.Run.Outcomes

/-!
# Calls in step

Operators, functions, classes and instances of a plain run and of a direct run. A function of one run and its twin of
the other have the same declaration, whose references note the distances of their run; they end the same way if their
bodies do.

* **`Closure.call_tandem`**, **`Class.instantiate_tandem`**, **`Instance.get_tandem`** — calls and bound methods.
* **`Runner.declareClass_tandem`** — the declaration of a class.
-/

namespace LoxLang

open Eval

variable {chosen : SourceStmt → Bool} {W : Pairing} {kept : Bool} {S S' : Scopes} {m m' : Machine}
  {body body' : BodyRunner} {v v' w w' : Value} {vs ws : List Value}

/-- Statements end the same way. -/
inductive Completion.Abreast (chosen : SourceStmt → Bool) (W : Pairing) : Completion → Completion → Prop where
  | completed : Abreast chosen W .completed .completed
  | returning {v w : Value} (h : v.Abreast chosen W w) : Abreast chosen W (.returning v) (.returning w)

/-! ## Operators

Operators see what a program can see of values, and that is the same on both sides. -/

namespace Eval

theorem unary_tandem (h : m.Abreast chosen W m') (operator : Token) (hvw : v.Abreast chosen W w) :
    Tandem chosen W (unary operator v) (unary operator w) (Value.Abreast chosen) m m' := by
  unfold unary
  split
  · rw [hvw.isTruthy_eq]
    exact .pure h (.bool _)
  · cases hvw with
    | number x => exact .pure h (.number _)
    | _ => exact .fail h _ _
  · exact .throw h _

/-- Numbers are equal and so are strings. -/
theorem add_tandem (h : m.Abreast chosen W m') (operator : Token) (hvw : v.Abreast chosen W w)
    (hvw' : v'.Abreast chosen W w') :
    Tandem chosen W (add operator v v') (add operator w w') (Value.Abreast chosen) m m' := by
  cases hvw with
  | number x =>
    cases hvw' with
    | number y => exact .pure h (.number _)
    | _ => exact .fail h _ _
  | string s =>
    cases hvw' with
    | string t => exact .pure h (.string _)
    | _ => exact .fail h _ _
  | _ => exact .fail h _ _

theorem arithmetic_tandem (h : m.Abreast chosen W m') (operator : Token) (x y : Float) :
    Tandem chosen W (arithmetic operator x y) (arithmetic operator x y) (Value.Abreast chosen) m m' := by
  unfold arithmetic
  split
  case h_8 => exact .throw h _
  all_goals first
    | exact .pure h (.bool _)
    | exact .pure h (.number _)

/-- Equality compares values that correspond to values that correspond. -/
theorem binary_tandem (h : m.Abreast chosen W m') (operator : Token) (hvw : v.Abreast chosen W w)
    (hvw' : v'.Abreast chosen W w') :
    Tandem chosen W (binary operator v v') (binary operator w w') (Value.Abreast chosen) m m' := by
  unfold binary
  rw [hvw.equals_eq hvw']
  split
  · exact .pure h (.bool _)
  · exact .pure h (.bool _)
  · exact add_tandem h operator hvw hvw'
  · cases hvw with
    | number x =>
      cases hvw' with
      | number y => exact arithmetic_tandem h operator x y
      | _ => exact .fail h _ _
    | _ => exact .fail h _ _

end Eval

/-! ## Functions

Calls run bodies, which are assumed to run in step. -/

/-- Bodies end the same way wherever they stand in scopes whose innermost frames correspond. -/
def BodyRunner.Tandem (chosen : SourceStmt → Bool) (plain direct : BodyRunner) : Prop :=
  ∀ {W : Pairing} {S S' : Scopes} {ss : List (Stmt Hops)} {m m' : Machine},
    Machine.Beside chosen W true S S' m m' → Stmt.AllScoped false S ss →
    Eval.Tandem chosen W (plain ss) (direct (Stmt.placedAll chosen S' ss)) (Completion.Abreast chosen) m m'

namespace Closure

/-- Both declarations are the same but for their distances. -/
theorem create_tandem (h : m.Abreast chosen W m') {env env' : Environment}
    (henv : Environment.Abreast W kept S S' env env') {d : FunDecl Hops} {T T' : Scopes} (hd : d.Scoped false T)
    (b : Bool) :
    Eval.Tandem chosen W (create d env b) (create (d.placed chosen T') env' b)
      (fun W₁ f g => f.Abreast chosen W₁ S S' T T' g ∧ f.isInitializer = b) m m' := by
  refine (Tandem.alloc h .identity).bind fun W₁ n n' address address' hmoves htwin => ?_
  exact .pure hmoves.abreast ⟨⟨htwin, rfl, hd, ⟨kept, henv.mono hmoves.grows⟩, rfl⟩, rfl⟩

/-- Methods are bound to `this` in a frame of either run. -/
theorem bind_tandem (h : m.Abreast chosen W m') {f g : Closure} (hfg : f.AbreastMethods chosen W g)
    (hvw : v.Abreast chosen W w) :
    Eval.Tandem chosen W (f.bind v) (g.bind w) (AbreastFunctions chosen) m m' := by
  obtain ⟨S, S', -, hdeclaration, hfits, ⟨kept, henv⟩, hinitializer⟩ := hfg
  refine (Tandem.alloc h (.frame (.singleton "this" hvw))).bind fun W₁ n n' a b hmoves hab => ?_
  have hinner : Environment.Abreast W₁ true (["this"] :: S) (["this"] :: S') (a :: f.environment)
      (b :: g.environment) := .keep hab (henv.mono hmoves.grows)
  rw [hdeclaration, hinitializer]
  refine (create_tandem hmoves.abreast hinner hfits f.isInitializer).mono fun W₂ f' g' _ hcreated => ?_
  exact ⟨_, _, hcreated.1, fun _ => rfl⟩

/-- The parameters are bound in frames that correspond, and the bodies run in step there. -/
theorem call_tandem (hbody : BodyRunner.Tandem chosen body body') (h : m.Abreast chosen W m') {f g : Closure}
    (hfg : f.AbreastFunctions chosen W g) (hvw : List.Forall₂ (Value.Abreast chosen W) vs ws) :
    Eval.Tandem chosen W (f.call body vs) (g.call body' ws) (Value.Abreast chosen) m m' := by
  obtain ⟨S, S', ⟨-, hdeclaration, hfits, ⟨kept, henv⟩, hinitializer⟩, hthis⟩ := hfg
  unfold call
  rw [hdeclaration, hinitializer, FunDecl.placed_params]
  refine (Tandem.alloc h (.frame (.ofLists _ hvw))).bind fun W₁ n n' a b hmoves hab => ?_
  -- the frame of the parameters is not passed over in either run
  have hinner : Environment.Abreast W₁ true ((f.declaration.params.map (·.lexeme)).reverse :: S)
      ((f.declaration.params.map (·.lexeme)).reverse :: S') (a :: f.environment) (b :: g.environment) :=
    .keep hab (henv.mono hmoves.grows)
  have hrun : Eval.Tandem chosen W₁ (body f.declaration.body) (body' (f.declaration.placed chosen S').body)
      (Completion.Abreast chosen) { n with environment := a :: f.environment }
      { n' with environment := b :: g.environment } := by
    rw [FunDecl.placed_body]
    exact hbody ⟨hmoves.abreast.move _ _, hinner⟩ hfits.body
  refine (Tandem.within hrun).bind fun W₂ o o' c d hmoves₂ hcd => ?_
  -- an initializer answers with `this`, which is in the innermost frame around the function
  cases hb : f.isInitializer with
  | true =>
    have henv₂ := henv.mono (hmoves.grows.trans hmoves₂.grows)
    exact Tandem.readHops hmoves₂.abreast henv₂ (hthis hb) (henv₂.hops_zero (hthis hb))
  | false =>
    cases hcd with
    | completed => exact .pure hmoves₂.abreast .nil
    | returning hvw => exact .pure hmoves₂.abreast hvw

end Closure

/-! ## Classes and instances

Instances correspond if their addresses and their classes do. -/

/-- A new instance on both sides, and the initializer called with it. -/
theorem Class.instantiate_tandem (hbody : BodyRunner.Tandem chosen body body') (h : m.Abreast chosen W m')
    {c d : Class} (hcd : c.Abreast chosen W d) (hvw : List.Forall₂ (Value.Abreast chosen W) vs ws) :
    Eval.Tandem chosen W (c.instantiate body vs) (d.instantiate body' ws) (Value.Abreast chosen) m m' := by
  refine (Tandem.alloc h (.fields .nil)).bind fun W₁ n n' b b' hmoves htwin => ?_
  have hobject : Value.Abreast chosen W₁ (.object ⟨b, c⟩) (.object ⟨b', d⟩) :=
    .object htwin (hcd.mono hmoves.grows)
  dsimp only
  unfold Class.initializer?
  obtain ⟨hc, hd⟩ | ⟨f, g, hc, hd, hfg⟩ := optionRel_cases (hcd.findMethod? "init")
  · rw [hc, hd]
    exact .pure hmoves.abreast hobject
  · rw [hc, hd]
    refine (Closure.bind_tandem hmoves.abreast (hfg.mono hmoves.grows) hobject).bind
      fun W₂ o o' f' g' hmoves₂ hfg' => ?_
    have hvw₂ := hvw.imp fun _ _ hv => hv.mono (hmoves.grows.trans hmoves₂.grows)
    refine (Closure.call_tandem hbody hmoves₂.abreast hfg' hvw₂).bind fun W₃ q q' _ _ hmoves₃ _ => ?_
    exact .pure hmoves₃.abreast (hobject.mono (hmoves₂.grows.trans hmoves₃.grows))

/-- Both have the field, or both have the method, or neither. -/
theorem Instance.get_tandem (h : m.Abreast chosen W m') {i j : Instance} (haddress : W.twin i.address j.address)
    (horigin : i.origin.Abreast chosen W j.origin) (name : Token) :
    Eval.Tandem chosen W (i.get name) (j.get name) (Value.Abreast chosen) m m' := by
  refine Tandem.get ?_
  obtain ⟨hi, hj⟩ | ⟨v, w, hi, hj, hvw⟩ := optionRel_cases (h.heap.fields haddress name.lexeme)
  · rw [hi, hj]
    dsimp only
    obtain ⟨hf, hg⟩ | ⟨f, g, hf, hg, hfg⟩ := optionRel_cases (horigin.findMethod? name.lexeme)
    · rw [hf, hg]
      exact .fail h _ _
    · rw [hf, hg]
      exact (Closure.bind_tandem h hfg (.object haddress horigin)).bind
        fun _ _ _ _ _ hmoves hbound => .pure hmoves.abreast (.function hbound)
  · rw [hi, hj]
    exact .pure h hvw

theorem Value.call_tandem (settings : Settings) (hbody : BodyRunner.Tandem chosen body body')
    (h : m.Abreast chosen W m') (hcallee : v.Abreast chosen W w)
    (hvw : List.Forall₂ (Value.Abreast chosen W) vs ws) :
    Eval.Tandem chosen W (v.call settings body vs) (w.call settings body' ws) (Value.Abreast chosen) m m' := by
  cases hcallee with
  | function hfg => exact Closure.call_tandem hbody h hfg hvw
  | clock => exact .readClock h settings
  | classValue hcd => exact Class.instantiate_tandem hbody h hcd hvw
  | _ => exact .throw h _

/-- Both sides check the same before they call. -/
theorem Runner.call_tandem (settings : Settings) {plain direct : Runner}
    (hbody : BodyRunner.Tandem chosen plain.executeAll direct.executeAll) (h : m.Abreast chosen W m')
    (paren : Token) (hcallee : v.Abreast chosen W w) (hvw : List.Forall₂ (Value.Abreast chosen W) vs ws) :
    Eval.Tandem chosen W (plain.call settings paren v vs) (direct.call settings paren w ws)
      (Value.Abreast chosen) m m' := by
  unfold Runner.call
  rw [hcallee.arity?_eq, hvw.length_eq]
  cases v.arity? with
  | none => exact .fail h _ _
  | some n =>
    dsimp only
    split
    · exact (Value.call_tandem settings hbody h hcallee hvw).overflowAt
    · exact .fail h _ _

/-! ## Declarations of classes

Step by step, with the methods made in environments that correspond. -/

namespace Runner

/-- Both values are classes or neither is. -/
theorem superclass_tandem (h : Machine.Beside chosen W kept S S' m m') {r : Reference Hops}
    (hnote : r.note = S.hops r.name.lexeme) :
    Eval.Tandem chosen W (superclass r) (superclass (r.placed S')) (Class.Abreast chosen) m m' := by
  refine (lookUp_tandem h hnote).bind fun W₁ n n' v w hmoves hvw => ?_
  cases hvw with
  | classValue hcd => exact .pure hmoves.abreast hcd
  | _ => exact .fail hmoves.abreast _ _

/-- Methods in the environment of a class. -/
theorem createMethods_tandem (h : m.Abreast chosen W m') {env env' : Environment}
    (henv : Environment.Abreast W kept S S' env env') {ds : List (FunDecl Hops)}
    (hds : FunDecl.AllScoped false (["this"] :: S) ds) {methods methods' : Bindings Closure}
    (hmethods : ∀ name, Option.Rel (Closure.AbreastMethods chosen W) (methods.get? name) (methods'.get? name)) :
    Eval.Tandem chosen W (createMethods env ds methods)
      (createMethods env' (FunDecl.placedAll chosen (["this"] :: S') ds) methods')
      (fun W₁ methods methods' =>
        ∀ name, Option.Rel (Closure.AbreastMethods chosen W₁) (methods.get? name) (methods'.get? name)) m m' := by
  induction ds generalizing W m m' methods methods' with
  | nil => exact .pure h hmethods
  | cons d ds ih =>
    obtain ⟨hd, hds⟩ := hds
    rw [FunDecl.placedAll, createMethods, createMethods, FunDecl.placed_name]
    refine (Closure.create_tandem h henv hd _).bind fun W₁ n n' f g hmoves hcreated => ?_
    refine ih hmoves.abreast (henv.mono hmoves.grows) hds fun name => ?_
    rw [Bindings.get?_put, Bindings.get?_put]
    by_cases heq : d.name.lexeme = name
    · rw [if_pos heq, if_pos heq]
      exact .some ⟨S, S', hcreated.1⟩
    · rw [if_neg heq, if_neg heq]
      exact optionRel_imp (hmethods name) fun _ _ hfg => hfg.mono hmoves.grows

/-- There may be no superclass. -/
theorem parentOf_tandem (h : Machine.Beside chosen W kept S S' m m') {heritage : Option (Reference Hops)}
    (hnote : ∀ r ∈ heritage, r.note = S.hops r.name.lexeme) :
    Eval.Tandem chosen W (parentOf heritage) (parentOf (heritage.map (·.placed S')))
      (fun W parent parent' => Option.Rel (Class.Abreast chosen W) parent parent' ∧
        parent.isSome = heritage.isSome) m m' := by
  cases heritage with
  | none => exact .pure h.abreast ⟨.none, rfl⟩
  | some r => exact (superclass_tandem h (hnote r rfl)).map fun W₁ c d _ hcd => ⟨.some hcd, rfl⟩

/-- The frame of `super` is opened on both sides. -/
theorem methodScope_tandem (h : m.Abreast chosen W m') {env env' : Environment}
    (henv : Environment.Abreast W true S S' env env') {parent parent' : Option Class}
    (hparent : Option.Rel (Class.Abreast chosen W) parent parent') :
    Eval.Tandem chosen W (methodScope env parent) (methodScope env' parent')
      (fun W inner inner' => Environment.Abreast W true (Scopes.ofHeritage parent ++ S)
        (Scopes.ofHeritage parent ++ S') inner inner') m m' := by
  cases hparent with
  | none => exact .pure h henv
  | some hcd =>
    have hframe := Tandem.alloc h (.frame (.singleton "super" (.classValue hcd)))
    exact hframe.map fun W₁ a b hgrows hab => .keep hab (henv.mono hgrows)

/-- The classes are made of methods that correspond. -/
theorem finishClass_tandem (h : m.Abreast chosen W m') {env env' : Environment}
    (henv : Environment.Abreast W kept S S' env env') (name : Token) {parent parent' : Option Class}
    (hparent : Option.Rel (Class.Abreast chosen W) parent parent') {methods methods' : Bindings Closure}
    (hmethods : ∀ name, Option.Rel (Closure.AbreastMethods chosen W) (methods.get? name) (methods'.get? name)) :
    Eval.Tandem chosen W (finishClass env name parent methods) (finishClass env' name parent' methods')
      (fun _ _ _ => True) m m' := by
  refine (Tandem.alloc h .identity).bind fun W₁ n n' b b' hmoves htwin => ?_
  have hown : ClassLayer.Abreast chosen W₁ ⟨b, name.lexeme, methods⟩ ⟨b', name.lexeme, methods'⟩ :=
    ⟨htwin, rfl, fun n => optionRel_imp (hmethods n) fun _ _ hfg => hfg.mono hmoves.grows⟩
  have hclass : Class.Abreast chosen W₁
      ⟨⟨b, name.lexeme, methods⟩, parent.elim [] fun c => c.own :: c.inherited⟩
      ⟨⟨b', name.lexeme, methods'⟩, parent'.elim [] fun c => c.own :: c.inherited⟩ := by
    refine ⟨hown, ?_⟩
    cases hparent with
    | none => exact .nil
    | some hcd =>
      have hcd' := hcd.mono hmoves.grows
      exact .cons hcd'.own hcd'.inherited
  exact .assign hmoves.abreast (henv.mono hmoves.grows) name (.classValue hclass)

/-- A class, with or without a superclass. -/
theorem declareClass_tandem (h : Machine.Beside chosen W true S S' m m') {name : Token}
    {heritage : Option (Reference Hops)} {methods : List (FunDecl Hops)}
    (hclass : (Stmt.class name heritage methods).Scoped false S) :
    Eval.Tandem chosen W (declareClass name heritage methods)
      (declareClass name (heritage.map (·.placed S'))
        (FunDecl.placedAll chosen (["this"] :: Scopes.ofHeritage heritage ++ S'.declare [name.lexeme]) methods))
      (fun _ _ _ => True) m m' := by
  -- the steps are those of `declareClass_eq`: the superclass, the name, the frame around the methods, the methods and
  -- the class
  obtain ⟨-, -, hmethods⟩ := hclass
  have hnote : ∀ r ∈ heritage, r.note = S.hops r.name.lexeme := by
    rintro r ⟨⟩
    exact hmethods.1
  have hinside : FunDecl.AllScoped false (["this"] :: (Scopes.ofHeritage heritage ++ S.declare [name.lexeme]))
      methods := by
    cases heritage with
    | none => exact hmethods
    | some r => exact hmethods.2
  rw [declareClass_eq, declareClass_eq]
  refine (parentOf_tandem h hnote).bind fun W₁ n n' parent parent' hmoves ⟨hparent, hsome⟩ => ?_
  refine (Tandem.declare (h.move hmoves) name .nil).bind fun W₂ o o' _ _ hmoves₂ _ => Tandem.get ?_
  have henv := ((h.move hmoves).move hmoves₂).environment
  have hparent₂ := optionRel_imp hparent fun _ _ hcd => hcd.mono hmoves₂.grows
  refine (methodScope_tandem hmoves₂.abreast (henv.declare [name.lexeme] fun _ => rfl) hparent₂).bind
    fun W₃ q q' inner inner' hmoves₃ hinner => ?_
  have hscopes : Scopes.ofHeritage parent = Scopes.ofHeritage heritage := by
    rw [Scopes.ofHeritage, hsome, Scopes.ofHeritage]
  rw [hscopes] at hinner
  refine (createMethods_tandem hmoves₃.abreast hinner hinside fun _ => .none).bind
    fun W₄ u u' methods methods' hmoves₄ hmethods => ?_
  have hgrows := hmoves₃.grows.trans hmoves₄.grows
  have hparent₄ := optionRel_imp hparent₂ fun _ _ hcd => hcd.mono hgrows
  exact finishClass_tandem hmoves₄.abreast (henv.mono hgrows) name hparent₄ hmethods

end Runner

end LoxLang
