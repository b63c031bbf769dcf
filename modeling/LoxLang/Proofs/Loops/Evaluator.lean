import LoxLang.Proofs.Loops.Calls

/-!
# Statements in step

* **`LoopRunner.Follows`** — a direct runner ends as a plain one does, in the scopes of either run.
* **`Runner.evaluateNode_tandem`**, **`Runner.executeNode_tandem`** — the rules keep this up, one case for each form.
* **`directRunner_follows`** — direct runs follow plain ones at every depth of nesting.
-/

namespace LoxLang

open Eval

variable {chosen : SourceStmt → Bool} {W : Pairing} {kept : Bool} {S S' : Scopes} {m m' : Machine}
  {plain : Runner} {direct : LoopRunner}

/-- A direct runner ends as a plain one does. What declares a name stands in scopes whose innermost frames
correspond. The statements of an inner block declare nothing; the plain runner opens a scope for them. -/
structure LoopRunner.Follows (chosen : SourceStmt → Bool) (plain : Runner) (direct : LoopRunner) : Prop where
  evaluate : ∀ {W : Pairing} {kept : Bool} {S S' : Scopes} {pending : Option String} {e : Expr Hops}
    {m m' : Machine}, Machine.Beside chosen W kept S S' m m' → (pending ≠ none → kept = true) →
    e.Scoped false S pending →
    Tandem chosen W (plain.evaluate e) (direct.evaluate (e.placed S' pending)) (Value.Abreast chosen) m m'
  execute : ∀ {W : Pairing} {kept : Bool} {S S' : Scopes} {s : Stmt Hops} {m m' : Machine},
    Machine.Beside chosen W kept S S' m m' → (s.declared ≠ [] → kept = true) → s.Scoped false S →
    Tandem chosen W (plain.execute s) (direct.execute (s.placed chosen false S')) (Completion.Abreast chosen) m m'
  executeFlat : ∀ {W : Pairing} {kept : Bool} {S S' : Scopes} {ss : List (Stmt Hops)} {m m' : Machine},
    Machine.Beside chosen W kept S S' m m' → Stmt.declaredAll ss = [] → Stmt.AllScoped false ([] :: S) ss →
    Tandem chosen W (plain.execute (.block ss)) (direct.executeFlat (Stmt.placedAll chosen S' ss))
      (Completion.Abreast chosen) m m'

namespace Runner

/-! ## Lists

Statements stand in the scopes that those before them declare, on both sides. -/

theorem evaluateAll_tandem (hrun : LoopRunner.Follows chosen plain direct) {pending : Option String}
    (h : Machine.Beside chosen W kept S S' m m') (hpending : pending ≠ none → kept = true)
    {es : List (Expr Hops)} (hes : Expr.Scoped.all false S pending es) :
    Tandem chosen W (plain.evaluateAll es) (direct.evaluateAll (Expr.placed.all S' pending es))
      (fun W => List.Forall₂ (Value.Abreast chosen W)) m m' := by
  induction es generalizing W m m' with
  | nil => exact .pure h.abreast .nil
  | cons e es ih =>
    obtain ⟨he, hes⟩ := hes
    refine (hrun.evaluate h hpending he).bind fun W₁ n n' v w hmoves hvw => ?_
    refine (ih (h.move hmoves) hes).bind fun W₂ o o' vs ws hmoves₂ hvws => ?_
    exact .pure hmoves₂.abreast (.cons (hvw.mono hmoves₂.grows) hvws)

/-- Statements up to the first that does not complete. -/
theorem executeAll_tandem (hrun : LoopRunner.Follows chosen plain direct)
    (h : Machine.Beside chosen W kept S S' m m') {ss : List (Stmt Hops)}
    (hdeclared : Stmt.declaredAll ss ≠ [] → kept = true) (hss : Stmt.AllScoped false S ss) :
    Tandem chosen W (plain.executeAll ss) (direct.executeAll (Stmt.placedAll chosen S' ss))
      (Completion.Abreast chosen) m m' := by
  induction ss generalizing W S S' m m' with
  | nil => exact .pure h.abreast .completed
  | cons s ss ih =>
    obtain ⟨hs, hss⟩ := hss
    have hhead : s.declared ≠ [] → kept = true :=
      fun hne => hdeclared fun heq => hne (List.append_eq_nil_iff.mp heq).1
    have htail : Stmt.declaredAll ss ≠ [] → kept = true :=
      fun hne => hdeclared fun heq => hne (List.append_eq_nil_iff.mp heq).2
    refine (hrun.execute h hhead hs).bind fun W₁ n n' c d hmoves hcd => ?_
    cases hcd with
    | returning hvw => exact .pure hmoves.abreast (.returning hvw)
    | completed =>
      have h₁ := h.move hmoves
      exact ih ⟨h₁.abreast, h₁.environment.declare s.declared hhead⟩ htail hss

/-- Bodies of functions are lists of statements. -/
theorem body_tandem (hrun : LoopRunner.Follows chosen plain direct) :
    BodyRunner.Tandem chosen plain.executeAll direct.executeAll :=
  fun h hss => executeAll_tandem hrun h (fun _ => rfl) hss

/-! ## Expressions

By the form of the expression, with the parts run in step by assumption. -/

/-- The scopes of `this` and `super` follow each other in both runs. -/
theorem superMethod_tandem (h : Machine.Beside chosen W kept S S' m m') {keyword : Reference Hops} {n : Nat}
    (hnote : keyword.note = some (n + 1)) (hsuper : S.hops "super" = some (n + 1))
    (hthis : S.hops "this" = some n) (method : Token) :
    Tandem chosen W (superMethod keyword method) (superMethod ⟨keyword.name, S'.hops "super"⟩ method)
      (Value.Abreast chosen) m m' := by
  -- distances differ in the two runs, but `this` stays one scope inside `super`
  obtain ⟨n', hthis', hsuper'⟩ := h.environment.hops_succ hthis hsuper
  unfold superMethod
  rw [hnote, hsuper']
  refine Tandem.get ?_
  refine (Tandem.readHops h.abreast h.environment hsuper hsuper').bind fun W₁ n n' c d hmoves hcd => ?_
  have henv := h.environment.mono hmoves.grows
  refine (Tandem.readHops hmoves.abreast henv hthis hthis').bind fun W₂ o o' v w hmoves₂ hvw => ?_
  cases hcd with
  | classValue hcd =>
    dsimp only
    obtain ⟨hf, hg⟩ | ⟨f, g, hf, hg, hfg⟩ := optionRel_cases ((hcd.mono hmoves₂.grows).findMethod? method.lexeme)
    · rw [hf, hg]
      exact .fail hmoves₂.abreast _ _
    · rw [hf, hg]
      exact (Closure.bind_tandem hmoves₂.abreast hfg hvw).bind
        fun _ _ _ _ _ hmoves₃ hbound => .pure hmoves₃.abreast (.function hbound)
  | _ => exact .throw hmoves₂.abreast _

/-- Literals are plain values. -/
theorem literal_abreast (value : Literal) : value.value.Abreast chosen W value.value := by
  cases value with
  | nil => exact .nil
  | bool b => exact .bool b
  | number x => exact .number x
  | string s => exact .string s

/-- An expression has corresponding values in the plain run and in the direct one. The distances differ where a frame of
the plain run is spare, and lead to frames that correspond. -/
theorem evaluateNode_tandem (settings : Settings) (hrun : LoopRunner.Follows chosen plain direct)
    {pending : Option String} (h : Machine.Beside chosen W kept S S' m m')
    (hpending : pending ≠ none → kept = true) {e : Expr Hops} (he : e.Scoped false S pending) :
    Tandem chosen W (plain.evaluateNode settings e) (direct.evaluateNode settings (e.placed S' pending))
      (Value.Abreast chosen) m m' := by
  -- worlds only grow, so that what corresponded before an operand still does so behind it
  cases e with
  | assign target value =>
    obtain ⟨hnote, -, -, hvalue⟩ := he
    refine (hrun.evaluate h hpending hvalue).bind fun W₁ n n' v w hmoves hvw => ?_
    have h₁ := h.move hmoves
    have hkept : pending.toList ≠ [] → kept = true := fun hne => hpending fun heq => hne (heq ▸ rfl)
    have hpast := h₁.environment.declare pending.toList hkept
    refine (assign_tandem ⟨h₁.abreast, hpast⟩ hnote hvw).bind fun W₂ o o' _ _ hmoves₂ _ => ?_
    exact .pure hmoves₂.abreast (hvw.mono hmoves₂.grows)
  | binary left operator right =>
    obtain ⟨hleft, -, hright⟩ := he
    refine (hrun.evaluate h hpending hleft).bind fun W₁ n n' l l' hmoves hl => ?_
    refine (hrun.evaluate (h.move hmoves) hpending hright).bind fun W₂ o o' r r' hmoves₂ hr => ?_
    exact binary_tandem hmoves₂.abreast operator (hl.mono hmoves₂.grows) hr
  | call callee paren arguments =>
    obtain ⟨hcallee, harguments⟩ := he
    refine (hrun.evaluate h hpending hcallee).bind fun W₁ n n' f g hmoves hfg => ?_
    refine (evaluateAll_tandem hrun (h.move hmoves) hpending harguments).bind fun W₂ o o' vs ws hmoves₂ hvw => ?_
    exact call_tandem settings (body_tandem hrun) hmoves₂.abreast paren (hfg.mono hmoves₂.grows) hvw
  | get object name =>
    refine (hrun.evaluate (e := object) h hpending he).bind fun W₁ n n' v w hmoves hvw => ?_
    cases hvw with
    | object haddress horigin => exact Instance.get_tandem hmoves.abreast haddress horigin name
    | _ => exact .fail hmoves.abreast _ _
  | grouping inner => exact hrun.evaluate (e := inner) h hpending he
  | literal value => exact .pure h.abreast (literal_abreast value)
  | logical left operator right =>
    obtain ⟨hleft, hright⟩ := he
    refine (hrun.evaluate h hpending hleft).bind fun W₁ n n' l l' hmoves hl => ?_
    rw [hl.isTruthy_eq]
    split
    · exact .pure hmoves.abreast hl
    · exact hrun.evaluate (h.move hmoves) hpending hright
  | set object name value =>
    obtain ⟨hobject, hvalue⟩ := he
    refine (hrun.evaluate h hpending hobject).bind fun W₁ n n' v w hmoves hvw => ?_
    cases hvw with
    | object haddress horigin =>
      refine (hrun.evaluate (h.move hmoves) hpending hvalue).bind fun W₂ o o' v w hmoves₂ hvw => ?_
      refine (Tandem.setField hmoves₂.abreast (hmoves₂.grows.twin haddress) name.lexeme hvw).bind
        fun W₃ q q' _ _ hmoves₃ _ => ?_
      exact .pure hmoves₃.abreast (hvw.mono hmoves₃.grows)
    | _ => exact .fail hmoves.abreast _ _
  | super keyword method =>
    obtain ⟨n, hnote, hsuper, hthis⟩ := he
    exact superMethod_tandem h hnote hsuper hthis method
  | this keyword =>
    obtain ⟨hlexeme, n, hnote, hthis⟩ := he
    exact lookUp_tandem h (by rw [hnote, hlexeme, hthis])
  | unary operator right =>
    refine (hrun.evaluate h hpending he.2).bind fun W₁ n n' v w hmoves hvw => ?_
    exact unary_tandem hmoves.abreast operator hvw
  | «variable» reference => exact lookUp_tandem h he
  | unknown => exact he.elim

/-! ## Statements

The one case that differs on the two sides is the loop that is taken directly. -/

theorem evaluateOption_tandem (hrun : LoopRunner.Follows chosen plain direct) {pending : Option String}
    (h : Machine.Beside chosen W kept S S' m m') (hpending : pending ≠ none → kept = true)
    {e? : Option (Expr Hops)} (he : Expr.OptionScoped false S pending e?) :
    Tandem chosen W (plain.evaluateOption e?) (direct.evaluateOption (e?.map (·.placed S' pending)))
      (Value.Abreast chosen) m m' := by
  cases e? with
  | none => exact .pure h.abreast .nil
  | some e => exact hrun.evaluate h hpending he

/-- Loops whose tests and rounds end the same way. -/
theorem repeatWhile_tandem {test test' : Eval Bool} {body body' : Eval Completion}
    (htest : ∀ {W : Pairing} {m m' : Machine}, Machine.Beside chosen W kept S S' m m' →
      Tandem chosen W test test' (fun _ b c => c = b) m m')
    (hbody : ∀ {W : Pairing} {m m' : Machine}, Machine.Beside chosen W kept S S' m m' →
      Tandem chosen W body body' (Completion.Abreast chosen) m m')
    (rounds : Nat) (h : Machine.Beside chosen W kept S S' m m') :
    Tandem chosen W (repeatWhile test body rounds) (repeatWhile test' body' rounds)
      (Completion.Abreast chosen) m m' := by
  -- round by round; what each round adds to the pairing is there in the next one
  induction rounds generalizing W m m' with
  | zero => exact .throw h.abreast _
  | succ rounds ih =>
    refine (htest h).bind fun W₁ n n' b c hmoves hbc => ?_
    subst hbc
    have h₁ := h.move hmoves
    cases c with
    | false => exact .pure h₁.abreast .completed
    | true =>
      refine (hbody h₁).bind fun W₂ o o' c d hmoves₂ hcd => ?_
      cases hcd with
      | returning hvw => exact .pure hmoves₂.abreast (.returning hvw)
      | completed => exact ih (h₁.move hmoves₂)

/-- A loop, whether or not it runs directly. -/
theorem while_tandem (settings : Settings) (hrun : LoopRunner.Follows chosen plain direct)
    (h : Machine.Beside chosen W kept S S' m m') {condition : Expr Hops} {body : Stmt Hops}
    (hwhile : (Stmt.while condition body).Scoped false S) :
    Tandem chosen W (plain.executeNode settings (.while condition body))
      (direct.executeNode settings chosen ((Stmt.while condition body).placed chosen false S'))
      (Completion.Abreast chosen) m m' := by
  obtain ⟨hcondition, hdeclared, hbody⟩ := hwhile
  have hdirect := Stmt.isDirect_placed chosen false S' (.while condition body)
  rw [Stmt.placed] at hdirect ⊢
  rw [LoopRunner.executeNode, hdirect]
  refine repeatWhile_tandem (fun h => ?_) (fun h => ?_) settings.rounds h
  · exact (hrun.evaluate h (by simp) hcondition).map fun _ _ _ _ hvw => hvw.isTruthy_eq
  · cases hflat : (Stmt.while condition body).isDirect chosen with
    -- a loop that is not chosen runs in the same frames in both
    | false => exact hrun.execute h (fun hne => absurd hdeclared hne) hbody
    | true =>
      -- a chosen one makes no frame for its body, and nothing would have been declared there
      obtain ⟨s, e, rfl, hs⟩ := Stmt.isDirect_while hflat
      have hnothing : Stmt.declaredAll [s, .expression e] = [] := by
        rw [Stmt.declaredAll, hs]
        rfl
      exact hrun.executeFlat h hnothing hbody

/-- A statement ends alike in both runs, and what it returns corresponds. The loops that run directly are the only ones
without a frame for each round. -/
theorem executeNode_tandem (settings : Settings) (hrun : LoopRunner.Follows chosen plain direct)
    (h : Machine.Beside chosen W kept S S' m m') {s : Stmt Hops} (hdeclared : s.declared ≠ [] → kept = true)
    (hs : s.Scoped false S) :
    Tandem chosen W (plain.executeNode settings s) (direct.executeNode settings chosen (s.placed chosen false S'))
      (Completion.Abreast chosen) m m' := by
  -- An expression that belongs to no initializer may stand anywhere.
  have hnone : (none : Option String) ≠ none → kept = true := fun hne => absurd rfl hne
  cases s with
  | block body =>
    refine (Tandem.alloc h.abreast (.frame .nil)).bind fun W₁ n n' a b hmoves hab => Tandem.get ?_
    have h₁ := h.move hmoves
    have hinner : Machine.Beside chosen W₁ true ([] :: S) ([] :: S') { n with environment := a :: n.environment }
        { n' with environment := b :: n'.environment } :=
      ⟨h₁.abreast.move _ _, .keep hab h₁.environment⟩
    exact Tandem.within (body_tandem hrun hinner hs)
  | expression value =>
    refine (hrun.evaluate (e := value) h hnone hs).bind fun W₁ n n' v w hmoves _ => ?_
    exact .pure hmoves.abreast .completed
  | function declaration =>
    obtain rfl : kept = true := hdeclared (List.cons_ne_nil _ _)
    obtain ⟨-, -, hdeclaration⟩ := hs
    have henv := h.environment.declare [declaration.name.lexeme] fun _ => rfl
    refine Tandem.get ((Closure.create_tandem h.abreast henv hdeclaration false).bind
      fun W₁ n n' f g hmoves ⟨hfg, hinitializer⟩ => ?_)
    have hvw : Value.Abreast chosen W₁ (.function f) (.function g) :=
      .function ⟨_, _, hfg, fun htrue => by rw [hinitializer] at htrue; cases htrue⟩
    rw [FunDecl.placed_name]
    refine (Tandem.declare (h.move hmoves) declaration.name hvw).bind fun W₂ o o' _ _ hmoves₂ _ => ?_
    exact .pure hmoves₂.abreast .completed
  | «class» name heritage methods =>
    obtain rfl : kept = true := hdeclared (List.cons_ne_nil _ _)
    exact (declareClass_tandem h hs).bind fun W₁ n n' _ _ hmoves _ => .pure hmoves.abreast .completed
  | «if» condition thenBranch elseBranch =>
    have hbranch : ∀ {s : Stmt Hops} {W₁ : Pairing} {n n' : Machine}, Machine.Moves chosen W m m' W₁ n n' →
        s.declared = [] → s.Scoped false S →
        Tandem chosen W₁ (plain.execute s) (direct.execute (s.placed chosen false S'))
          (Completion.Abreast chosen) n n' :=
      fun hmoves hnothing hs => hrun.execute (h.move hmoves) (fun hne => absurd hnothing hne) hs
    cases elseBranch with
    | none =>
      obtain ⟨hcondition, ⟨hthenDeclared, hthen⟩, -⟩ := hs
      refine (hrun.evaluate h hnone hcondition).bind fun W₁ n n' v w hmoves hvw => ?_
      rw [hvw.isTruthy_eq]
      split
      · exact hbranch hmoves hthenDeclared hthen
      · exact .pure hmoves.abreast .completed
    | some s =>
      obtain ⟨hcondition, ⟨hthenDeclared, hthen⟩, helseDeclared, helse⟩ := hs
      refine (hrun.evaluate h hnone hcondition).bind fun W₁ n n' v w hmoves hvw => ?_
      rw [hvw.isTruthy_eq]
      split
      · exact hbranch hmoves hthenDeclared hthen
      · exact hbranch hmoves helseDeclared helse
  | print value =>
    refine (hrun.evaluate (e := value) h hnone hs).bind fun W₁ n n' v w hmoves hvw => ?_
    refine (Tandem.print hmoves.abreast hvw.text_eq).bind fun W₂ o o' _ _ hmoves₂ _ => ?_
    exact .pure hmoves₂.abreast .completed
  | «return» keyword value =>
    refine (evaluateOption_tandem hrun h hnone hs).bind fun W₁ n n' v w hmoves hvw => ?_
    exact .pure hmoves.abreast (.returning hvw)
  | var name initializer =>
    obtain rfl : kept = true := hdeclared (List.cons_ne_nil _ _)
    obtain ⟨-, -, hinitializer⟩ := hs
    rw [Stmt.placed, h.environment.isEmpty_eq]
    refine (evaluateOption_tandem hrun h (fun _ => rfl) hinitializer).bind fun W₁ n n' v w hmoves hvw => ?_
    refine (Tandem.declare (h.move hmoves) name hvw).bind fun W₂ o o' _ _ hmoves₂ _ => ?_
    exact .pure hmoves₂.abreast .completed
  | «while» condition body => exact while_tandem settings hrun h hs
  | unknown => exact hs.elim

end Runner

/-! ## Nesting

The inner block counts as a level of nesting for a direct run too, so that both sides run into the bound at the same
place. -/

/-- Direct runs follow plain ones, by induction on the depth: without any depth left both stop. -/
theorem directRunner_follows (settings : Settings) (chosen : SourceStmt → Bool) (n : Nat) :
    LoopRunner.Follows chosen ⟨evaluateNested settings n, executeNested settings n⟩
      (directRunner settings chosen n) := by
  induction n with
  | zero => exact ⟨fun h _ _ => .throw h.abreast _, fun h _ _ => .throw h.abreast _, fun h _ _ => .throw h.abreast _⟩
  | succ n ih =>
    refine ⟨fun h hpending he => ?_, fun h hdeclared hs => ?_, fun {_ _ _ _ ss _ _} h hnothing hss => ?_⟩
    · exact Runner.evaluateNode_tandem settings ih h hpending he
    · exact Runner.executeNode_tandem settings ih h hdeclared hs
    · -- The plain run opens a scope for the inner block, and nothing in the block declares a name.
      refine Tandem.openSpare h fun W₁ n _ h₁ => ?_
      exact Runner.executeAll_tandem ih h₁ (fun hne => absurd hnothing hne) hss

end LoxLang
