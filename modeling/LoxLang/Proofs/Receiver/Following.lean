import LoxLang.Proofs.Lookup.Agreement
import LoxLang.Proofs.Receiver.Housed

/-!
# Runs at home follow plain runs

`Homed.Follows` is a triple for a run at home and a plain one on one machine: both do the same, and all functions that
are made get homes that fit. The rules below are for what runs are made of.

* **`Homed.Follows.bind`**, **`Homed.Follows.lift_bind`** — one run after another, and parts that make no functions.
* **`Homed.Follows.create`**, **`Homed.Follows.forInstance`** — the two ways in which a function gets a home.

The triple is about one machine and not about two, since a run at home does what the plain one does: homes are kept
beside the machine, and nothing that a program can see depends on them.
-/

namespace LoxLang

/-- What a run leaves: housed functions, homes and words as they were, and the environment it began in. -/
structure Housing.Leads (x x' : Housing) : Prop where
  housed : x'.1.heap.Housed x'.2
  tends : x.1.heap.Tends x.2 x'.1.heap x'.2
  environment : x'.1.environment = x.1.environment

/-- A place in the code on a machine: the home fits its scopes. -/
structure Housing.At (x : Housing) (home : Home) (S : Scopes) : Prop where
  housed : x.1.heap.Housed x.2
  fits : home.Fits x.1.heap x.1.environment S

/-- A value in a housing. -/
abbrev Housing.Holds (x : Housing) (v : Value) : Prop :=
  v.Housed x.1.heap x.2

/-- A run at home and a plain one have the same result on the same machine, and the functions stay housed. -/
def Homed.Follows {α : Type} (act : Homed α) (plain : Eval α) (Q : Housing → α → Prop) (x : Housing) : Prop :=
  ∃ result x', act x = (result, x') ∧ plain x.1 = (result, x'.1) ∧ x.Leads x' ∧ ∀ a, result = .ok a → Q x' a

section

variable {x x' x'' : Housing} {home : Home} {S : Scopes}

theorem Housing.Leads.refl (hhoused : x.1.heap.Housed x.2) : x.Leads x :=
  ⟨hhoused, .refl _ _, rfl⟩

theorem Housing.Leads.trans (h : x.Leads x') (h' : x'.Leads x'') : x.Leads x'' :=
  ⟨h'.housed, h.tends.trans h'.tends, h'.environment.trans h.environment⟩

/-- A run leaves everything at the place where it began. -/
theorem Housing.At.lead (h : x.At home S) (hlead : x.Leads x') : x'.At home S := by
  refine ⟨hlead.housed, ?_⟩
  rw [hlead.environment]
  exact h.fits.mono hlead.tends

/-- Names of a program are not those of the words, so that declaring them changes nothing for `this` and `super`. -/
theorem Housing.At.declare {names : List String} (h : x.At home S) (hnames : ∀ name ∈ names, ¬ IsWord name) :
    x.At home (S.declare names) :=
  ⟨h.housed, h.fits.declare hnames⟩

/-- The code within a frame of its own. -/
theorem Housing.At.enter {names : List String} {env : Environment} (hhoused : x.1.heap.Housed x.2)
    (hfits : home.Fits x.1.heap env S) (hnames : ∀ name ∈ names, ¬ IsWord name) (a : Address) :
    Housing.At ({ x.1 with environment := a :: env }, x.2) home (names :: S) :=
  ⟨hhoused, hfits.enter hnames a⟩

end

namespace Homed.Follows

variable {α β : Type} {x : Housing} {act : Homed α} {plain part : Eval α} {f : α → Homed β} {g : α → Eval β}
  {P : Housing → α → Prop} {Q : Housing → β → Prop}

/-- A result that has a home already, if it needs one. -/
theorem pure (hhoused : x.1.heap.Housed x.2) {a : α} (ha : P x a) : Follows (pure a) (pure a) P x := by
  refine ⟨_, x, rfl, rfl, .refl hhoused, fun b hb => ?_⟩
  cases hb
  exact ha

/-- Both runs stop for the same reason. -/
theorem stop (hhoused : x.1.heap.Housed x.2) (stop : Stop) : Follows (throw stop) (throw stop) P x :=
  ⟨_, x, rfl, rfl, .refl hhoused, fun _ hb => by cases hb⟩

/-- What is known of results may be weakened. -/
theorem mono {P' : Housing → α → Prop} (h : Follows act plain P x)
    (himp : ∀ x', x.Leads x' → ∀ a, P x' a → P' x' a) : Follows act plain P' x := by
  obtain ⟨result, x', hact, hplain, hlead, hpost⟩ := h
  exact ⟨result, x', hact, hplain, hlead, fun a ha => himp x' hlead a (hpost a ha)⟩

/-- Only what the runs do on this machine counts. -/
theorem congr {act' : Homed α} {plain' : Eval α} (hact : act x = act' x) (hplain : plain x.1 = plain' x.1)
    (h : Follows act' plain' P x) : Follows act plain P x := by
  unfold Follows
  rw [hact, hplain]
  exact h

/-- One run after another; the second one may use what is known of the first result. -/
theorem bind (h : Follows act plain P x) (hf : ∀ a x', x.Leads x' → P x' a → Follows (f a) (g a) Q x') :
    Follows (act >>= f) (plain >>= g) Q x := by
  obtain ⟨result, x', hact, hplain, hlead, hpost⟩ := h
  unfold Follows
  rw [Homed.bind_apply, Eval.bind_apply, hact, hplain]
  cases result with
  | error stop => exact ⟨_, x', rfl, rfl, hlead, fun _ hb => by cases hb⟩
  | ok a =>
    obtain ⟨result', x'', hact', hplain', hlead', hpost'⟩ := hf a x' hlead (hpost a rfl)
    exact ⟨result', x'', hact', hplain', hlead.trans hlead', hpost'⟩

/-- The result is changed on both sides. -/
theorem map {f : α → β} (h : Follows act plain P x) (hf : ∀ a x', x.Leads x' → P x' a → Q x' (f a)) :
    Follows (f <$> act) (f <$> plain) Q x := by
  rw [map_eq_pure_bind, map_eq_pure_bind]
  exact h.bind fun a x' hlead ha => .pure hlead.housed (hf a x' hlead ha)

theorem ensuring (check : Machine → Bool) (hcheck : check x.1 = true) (h : Follows act plain P x) :
    Follows (ensuring check act) plain P x := by
  unfold Follows Homed.ensuring
  rw [if_pos hcheck]
  exact h

/-- A run elsewhere; whoever asked for it is back in the old environment. -/
theorem within {env : Environment} (h : Follows act plain P ({ x.1 with environment := env }, x.2))
    (hP : ∀ (x' : Housing) env' a, P x' a → P ({ x'.1 with environment := env' }, x'.2) a) :
    Follows (within env act) (Eval.within env plain) P x := by
  obtain ⟨result, x', hact, hplain, hlead, hpost⟩ := h
  refine ⟨result, ({ x'.1 with environment := x.1.environment }, x'.2), ?_, ?_, ⟨hlead.housed, hlead.tends, rfl⟩, ?_⟩
  · unfold Homed.within
    rw [hact]
  · unfold Eval.within
    dsimp only
    dsimp only at hplain
    rw [hplain]
  · exact fun a ha => hP x' _ a (hpost a ha)

/-- Both calls are too deep or none is. -/
theorem overflowAt {token : Token} (h : Follows act plain P x) :
    Follows (overflowAt token act) (Eval.overflowAt token plain) P x := by
  obtain ⟨result, x', hact, hplain, hlead, hpost⟩ := h
  unfold Follows Homed.overflowAt Eval.overflowAt
  rw [hact, hplain]
  match result with
  | .ok a => exact ⟨_, x', rfl, rfl, hlead, hpost⟩
  | .error (.error _) | .error (.fault _) | .error .tooLong => exact ⟨_, x', rfl, rfl, hlead, hpost⟩
  | .error .tooDeep => exact ⟨_, x', rfl, rfl, hlead, fun _ hb => by cases hb⟩

/-! ### Parts that make no functions

A part of the plain run may be lifted into the run at home where it makes no function. Homes stay as they are. -/

/-- A part that changes the machine in one step. -/
theorem lift_ok {m' : Machine} {a : α} (hpart : part x.1 = (.ok a, m')) (hlead : x.Leads (m', x.2))
    (ha : P (m', x.2) a) : Follows (lift part) part P x := by
  refine ⟨.ok a, (m', x.2), ?_, hpart, hlead, fun b hb => ?_⟩
  · unfold Homed.lift
    rw [hpart]
  · cases hb
    exact ha

theorem lift_pure (hhoused : x.1.heap.Housed x.2) {a : α} (ha : P x a) :
    Follows (lift (Pure.pure a)) (Pure.pure a) P x :=
  lift_ok rfl (.refl hhoused) ha

theorem lift_stop (hhoused : x.1.heap.Housed x.2) (stop : Stop) :
    Follows (lift (throw stop)) (throw stop) P x :=
  ⟨.error stop, x, rfl, rfl, .refl hhoused, fun _ hb => by cases hb⟩

theorem fail (hhoused : x.1.heap.Housed x.2) (cause : Cause) (token : Token) :
    Follows (lift (Eval.fail cause token)) (Eval.fail cause token) P x :=
  lift_stop hhoused _

/-- Two parts in succession are one part. -/
theorem lift_bind {g : α → Eval β} (h : Follows (lift part) part P x)
    (hg : ∀ a x', x.Leads x' → P x' a → Follows (lift (g a)) (g a) Q x') :
    Follows (lift (part >>= g)) (part >>= g) Q x := by
  have hlift : lift (part >>= g) = lift part >>= fun a => lift (g a) := by
    funext x
    rw [Homed.bind_apply]
    unfold Homed.lift
    rw [Eval.bind_apply]
    rcases part x.1 with ⟨_ | _, _⟩ <;> rfl
  rw [hlift]
  exact h.bind hg

/-- The result of a part is changed. -/
theorem lift_map {g : α → β} (h : Follows (lift part) part P x)
    (hg : ∀ a x', x.Leads x' → P x' a → Q x' (g a)) : Follows (lift (g <$> part)) (g <$> part) Q x := by
  rw [map_eq_pure_bind]
  exact h.lift_bind fun a x' hlead ha => lift_pure hlead.housed (hg a x' hlead ha)

/-- The part looks at the machine. -/
theorem lift_get {g : Machine → Eval β} (h : Follows (lift (g x.1)) (g x.1) Q x) :
    Follows (lift (MonadState.get >>= g)) (MonadState.get >>= g) Q x :=
  h

theorem get {f : Machine → Homed β} {g : Machine → Eval β} (h : Follows (f x.1) (g x.1) Q x) :
    Follows (lift MonadState.get >>= f) (MonadState.get >>= g) Q x :=
  h

/-- Operators give plain values, which need no homes. -/
theorem still {part : Eval Value} (hhoused : x.1.heap.Housed x.2) (h : Eval.Still part) :
    Follows (lift part) part Housing.Holds x := by
  cases h with
  | value hv => exact lift_pure hhoused (Value.Housed.of_isPlain hv)
  | stop _ => exact lift_stop hhoused _

/-- What the frame binds has homes already. -/
theorem allocFrame (hhoused : x.1.heap.Housed x.2) {vars : Bindings Value}
    (hvars : ∀ name v, vars.get? name = some v → x.Holds v) :
    Follows (lift (Eval.alloc (.frame vars))) (Eval.alloc (.frame vars))
      (fun x' a => ∀ name v, vars.get? name = some v → (x'.1.heap.vars a).get? name = some v) x := by
  have htends := Heap.Tends.alloc x.1.heap x.2 (.frame vars)
  have hhoused' : (x.1.heap.alloc (.frame vars)).2.Housed x.2 := by
    refine hhoused.alloc htends (fun _ heq => ?_) fun _ heq => by cases heq
    cases heq
    exact hvars
  refine lift_ok rfl ⟨hhoused', htends, rfl⟩ fun name v hv => ?_
  show ((x.1.heap.alloc (.frame vars)).2.vars x.1.heap.cells.size).get? name = some v
  rwa [Heap.vars_alloc, if_pos rfl]

/-- A new instance, or the identity of a class. -/
theorem alloc (hhoused : x.1.heap.Housed x.2) {c : Cell} (hc : c = .fields [] ∨ c = .identity) :
    Follows (lift (Eval.alloc c)) (Eval.alloc c)
      (fun x' a => a = x.1.heap.cells.size ∧ a < x'.1.heap.cells.size) x := by
  have htends := Heap.Tends.alloc x.1.heap x.2 c
  have hvars : ∀ vars, c ≠ .frame vars := by
    rintro vars rfl
    rcases hc with hc | hc <;> cases hc
  have hfields : ∀ fields, c = .fields fields → fields = [] := by
    rintro fields rfl
    rcases hc with hc | hc <;> cases hc
    rfl
  refine lift_ok rfl ⟨hhoused.alloc htends (fun vars heq => absurd heq (hvars vars)) hfields, htends, rfl⟩ ⟨rfl, ?_⟩
  show x.1.heap.cells.size < (x.1.heap.cells.push c).size
  rw [Array.size_push]
  omega

/-- The value need only be housed where it is bound already: a function sees its own name. -/
theorem define (hhoused : x.1.heap.Housed x.2) {a : Address} {name : String} {v : Value} (hname : ¬ IsWord name)
    (hv : x.Holds v) : Follows (lift (Eval.define a name v)) (Eval.define a name v) (fun _ _ => True) x := by
  have htends := Heap.Tends.define x.1.heap x.2 a hname v
  exact lift_ok rfl ⟨hhoused.define hname (hv.mono htends), htends, rfl⟩ trivial

/-- What the field gets has a home already. -/
theorem setField (hhoused : x.1.heap.Housed x.2) {v : Value} (hv : x.Holds v) (a : Address) (name : String) :
    Follows (lift (Eval.setField a name v)) (Eval.setField a name v) (fun _ _ => True) x :=
  lift_ok rfl ⟨hhoused.setField hv a name, .setField _ _ a name v, rfl⟩ trivial

/-- Printing leaves the heap alone. -/
theorem print (hhoused : x.1.heap.Housed x.2) (text : String) :
    Follows (lift (Eval.print text)) (Eval.print text) (fun _ _ => True) x :=
  lift_ok rfl ⟨hhoused, .refl _ _, rfl⟩ trivial

/-- The clock shows a number. -/
theorem readClock (hhoused : x.1.heap.Housed x.2) (settings : Settings) :
    Follows (lift (Eval.readClock settings)) (Eval.readClock settings) Housing.Holds x :=
  lift_ok rfl ⟨hhoused, .refl _ _, rfl⟩ trivial

/-! ### Variables

What is read comes from the heap and so has a home. What is written must not be written to one of the words, and no name
of a program is one. -/

theorem readAt (hhoused : x.1.heap.Housed x.2) (env : Environment) (distance : Nat) (name : String) :
    Follows (lift (Eval.readAt env distance name)) (Eval.readAt env distance name) Housing.Holds x := by
  refine lift_get ?_
  cases hget : env.getAt x.1.heap distance name with
  | error fault => exact lift_stop hhoused _
  | ok v =>
    obtain ⟨a, ha⟩ := Environment.exists_of_getAt hget
    exact lift_pure hhoused (hhoused.vars ha)

/-- By distance, to a name that is no word. -/
theorem assignAt (hhoused : x.1.heap.Housed x.2) (env : Environment) (distance : Nat) {name : String} {v : Value}
    (hname : ¬ IsWord name) (hv : x.Holds v) :
    Follows (lift (Eval.assignAt env distance name v)) (Eval.assignAt env distance name v) (fun _ _ => True) x := by
  unfold Eval.assignAt
  cases env.frameAt distance with
  | error fault => exact lift_stop hhoused _
  | ok a => exact define hhoused hname hv

theorem read (hhoused : x.1.heap.Housed x.2) (env : Environment) (name : Token) :
    Follows (lift (Eval.read env name)) (Eval.read env name) Housing.Holds x := by
  refine lift_get ?_
  cases hget : env.get? x.1.heap name.lexeme with
  | none => exact fail hhoused _ _
  | some v =>
    obtain ⟨a, -, ha⟩ := List.exists_of_findSome?_eq_some hget
    exact lift_pure hhoused (hhoused.vars ha)

/-- By search, to a name that is no word. -/
theorem assign (hhoused : x.1.heap.Housed x.2) (env : Environment) {name : Token} {v : Value}
    (hname : ¬ IsWord name.lexeme) (hv : x.Holds v) :
    Follows (lift (Eval.assign env name v)) (Eval.assign env name v) (fun _ _ => True) x := by
  refine lift_get ?_
  cases env.holder? x.1.heap name.lexeme with
  | none => exact fail hhoused _ _
  | some a => exact define hhoused hname hv

/-- In the innermost frame, with a name that is no word. -/
theorem declare (hhoused : x.1.heap.Housed x.2) {name : Token} {v : Value} (hname : ¬ IsWord name.lexeme)
    (hv : x.Holds v) :
    Follows (lift (Eval.declare name v)) (Eval.declare name v) (fun _ _ => True) x := by
  refine lift_get ?_
  cases x.1.environment with
  | nil => exact lift_pure hhoused trivial
  | cons a env => exact define hhoused hname hv

/-- A reference, by distance or among the globals. -/
theorem lookUp (hhoused : x.1.heap.Housed x.2) (reference : Reference Hops) :
    Follows (lift (Runner.lookUp reference)) (Runner.lookUp reference) Housing.Holds x := by
  unfold Runner.lookUp
  cases reference.note with
  | none => exact read hhoused _ _
  | some distance => exact lift_get (readAt hhoused _ _ _)

/-- The target of an assignment, by distance or among the globals. -/
theorem assignTo (hhoused : x.1.heap.Housed x.2) {target : Reference Hops} {v : Value} (hname : target.name.IsName)
    (hv : x.Holds v) : Follows (lift (Runner.assign target v)) (Runner.assign target v) (fun _ _ => True) x := by
  unfold Runner.assign
  cases target.note with
  | none => exact assign hhoused _ hname.not_isWord hv
  | some distance => exact lift_get (assignAt hhoused _ _ hname.not_isWord hv)

/-! ### Functions

A new function is at a new address, so that giving it a home takes none away. -/

/-- The home of a function is known. -/
theorem homeOf {closure : Closure} {f : Home → Homed β} {plain : Eval β}
    (h : Follows (f (x.2 closure.address)) plain Q x) : Follows (homeOf closure >>= f) plain Q x :=
  h

/-- A function that is declared gets the home of the code around it. -/
theorem create (hhoused : x.1.heap.Housed x.2) (home : Home) (declaration : FunDecl Hops) (env : Environment)
    (isInitializer : Bool) :
    Follows (home.create declaration env isInitializer) (Closure.create declaration env isInitializer)
      (fun x' f => f.address < x'.1.heap.cells.size ∧ x'.2 f.address = home ∧ f.declaration = declaration ∧
        f.environment = env ∧ f.isInitializer = isInitializer) x := by
  let f : Closure := ⟨x.1.heap.cells.size, declaration, env, isInitializer⟩
  have htends := Heap.Tends.settle x.1.heap x.2 home
  have hhoused' := hhoused.alloc htends (fun _ heq => by cases heq) fun _ heq => by cases heq
  refine ⟨.ok f, ({ x.1 with heap := (x.1.heap.alloc .identity).2 }, Function.update x.2 f.address home), rfl, rfl,
    ⟨hhoused', htends, rfl⟩, fun g hg => ?_⟩
  cases hg
  refine ⟨?_, Function.update_self _ _ _, rfl, rfl, rfl⟩
  show x.1.heap.cells.size < (x.1.heap.cells.push .identity).size
  rw [Array.size_push]
  omega

/-- A method that is looked up for an instance gets a home at it. -/
theorem forInstance (hhoused : x.1.heap.Housed x.2) {name : String} {f : Closure}
    (hf : f.IsHousedMethod x.1.heap x.2 name) {i : Instance} (hi : x.Holds (.object i)) :
    Follows (Home.bind f i) (f.bind (.object i)) (fun x' g => g.Housed x'.1.heap x'.2) x := by
  obtain ⟨hlt, -, S, hscoped, hsuper⟩ := hf
  have hbinding : ∀ name v, Bindings.get? [("this", Value.object i)] name = some v → x.Holds v := by
    intro name v hv
    rw [Bindings.get?_singleton] at hv
    split at hv
    · cases hv
      exact hi
    · cases hv
  -- the home is read before the frame is made, which leaves it as it is
  have hbind : Home.bind f i x = (lift (Eval.alloc (.frame [("this", .object i)])) >>= fun frame =>
      Home.create { x.2 f.address with receiver? := some i } f.declaration (frame :: f.environment) f.isInitializer) x :=
    rfl
  refine congr hbind rfl ?_
  refine (allocFrame hhoused hbinding).bind fun frame x₁ hlead hframe => ?_
  refine (create hlead.housed _ _ _ _).mono ?_
  rintro x₂ hlead₂ g ⟨haddress, hhome, hdeclaration, henvironment, -⟩
  have htends := hlead.tends.trans hlead₂.tends
  have hthis : Scopes.hops (["this"] :: S) "this" = some 0 := rfl
  refine ⟨haddress, ["this"] :: S, by rwa [hdeclaration], ?_, fun _ => hthis⟩
  rw [hhome, henvironment]
  constructor
  · intro n hn
    obtain rfl : 0 = n := Option.some.inj (hthis.symm.trans hn)
    exact ⟨i, rfl, frame, rfl, hlead₂.tends.words (.inl rfl) (hframe _ _ rfl)⟩
  · intro n hn hn'
    obtain rfl : 0 = n := Option.some.inj (hthis.symm.trans hn)
    rw [Scopes.hops_cons, if_neg (by decide)] at hn'
    obtain ⟨k, hk, hk'⟩ := Option.map_eq_some_iff.mp hn'
    obtain rfl : k = 0 := by omega
    obtain ⟨c, hc, a, ha, hv⟩ := hsuper hk
    exact ⟨c, hc, a, ha, htends.words (.inr rfl) hv⟩

end Homed.Follows

end LoxLang
