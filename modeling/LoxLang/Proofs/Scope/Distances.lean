import LoxLang.Proofs.Scope.Events
import LoxLang.Proofs.Scope.Resolved

/-!
# Distances are lexical

What the resolver notes at a reference, and enters in the table, is told by the events before the reference: the
distance to the nearest open scope that has declared the name. So it is in every well-formed program, those with
complaints included.

* **`Stmt.resolve_records`** — the resolver notes at each reference of a statement what the events tell.
* **`resolve_records`** — so it does in whole programs, each statement for itself.

`Resolution.Records` is a triple for walks of the resolver. Its postcondition speaks of the result and of the entries
that the walk adds.
-/

namespace LoxLang

open Event

/-! ## What walks add

Complaints are of no concern here, and neither is what was recorded before. `Silent` is for the parts of a walk that
record nothing. -/

namespace Resolution

variable {α β : Type}

/-- A walk without a fault whose result has the property, together with the entries that the walk adds. -/
def Records (act : Resolution α) (Q : α → List Entry → Prop) : Prop :=
  ∃ a es ds, act.Adds a es ds ∧ Q a es

/-- A walk that gives this result and adds no entry. -/
def Silent (act : Resolution α) (a : α) : Prop :=
  ∃ ds, act.Adds a [] ds

variable {act : Resolution α} {f : α → Resolution β} {Q : α → List Entry → Prop} {R : β → List Entry → Prop}

/-- A walk that is over records nothing. -/
theorem Records.pure {a : α} (h : Q a []) : Records (pure a) Q :=
  ⟨a, [], [], adds_pure a, h⟩

/-- The entries of the second walk come after those of the first. -/
theorem Records.bind (h : Records act Q) (hf : ∀ a, Records (f a) fun b es' => ∀ es, Q a es → R b (es ++ es')) :
    Records (act >>= f) R := by
  obtain ⟨a, es, ds, hadds, hQ⟩ := h
  obtain ⟨b, es', ds', hadds', hR⟩ := hf a
  exact ⟨b, es ++ es', ds ++ ds', hadds.bind hadds', hR es hQ⟩

theorem Records.map {g : α → β} (h : Records act Q) (hg : ∀ a es, Q a es → R (g a) es) :
    Records (do return g (← act)) R :=
  h.bind fun a => .pure fun es hQ => by rw [List.append_nil]; exact hg a es hQ

/-- What the result has in any case. -/
theorem Records.giving {P : α → Prop} (h : Records act Q) (hgives : Gives act P) :
    Records act fun a es => Q a es ∧ P a := by
  obtain ⟨a, es, ds, hadds, hQ⟩ := h
  have ha := hgives {}
  rw [hadds {} rfl] at ha
  exact ⟨a, es, ds, hadds, hQ, ha⟩

/-- A walk behind one that adds no entry. -/
theorem Silent.bind {a : α} (h : Silent act a) (hf : Records (f a) R) : Records (act >>= f) R := by
  obtain ⟨ds, hadds⟩ := h
  obtain ⟨b, es, ds', hadds', hR⟩ := hf
  exact ⟨b, es, ds ++ ds', hadds.bind hadds', hR⟩

/-- A complaint is no entry. -/
theorem silent_complain (cause : Cause) (token : Token) : Silent (complain cause token) () :=
  ⟨_, complain_adds cause token⟩

/-- A check of a rule, and the walk behind it. -/
theorem Records.check {c : Prop} [Decidable c] {cause : Cause} {token : Token} {f : Unit → Resolution β}
    (h : Records (f ()) R) : Records (if c then complain cause token >>= f else f ()) R := by
  by_cases hc : c
  · rw [if_pos hc]
    exact (silent_complain cause token).bind h
  · rw [if_neg hc]
    exact h

/-- Neither is the one about a name that is declared twice. -/
theorem silent_complainIfDeclared (around : Surroundings) (name : Token) :
    Silent (complainIfDeclared around name) () := by
  unfold complainIfDeclared
  by_cases hdeclared : around.declares name.lexeme = true
  · rw [if_pos hdeclared]
    exact silent_complain _ name
  · rw [if_neg hdeclared]
    exact ⟨[], adds_pure ()⟩

/-- Parameters are declared, which is not recorded. -/
theorem silent_params (around : Surroundings) (ps : List Token) : Silent (params around ps) (behind around ps) := by
  induction ps generalizing around with
  | nil => exact ⟨[], adds_pure around⟩
  | cons p ps ih =>
    obtain ⟨ds, hfirst⟩ := silent_complainIfDeclared around p
    obtain ⟨ds', hrest⟩ := ih (around.declaring [p.lexeme])
    exact ⟨ds ++ ds', hfirst.bind hrest⟩

end Resolution

open Resolution

/-! ## What is told

The entries of a tree are those of its events, and each has the distance that the events before it tell. -/

/-- The references among the events note what the events tell, and these are their entries. -/
structure Told (S : Scopes) (events : List (Event Hops)) (es : List Entry) : Prop where
  entries : es = Event.entries events
  noted : Noted S events

namespace Told

variable {S : Scopes} {events events' : List (Event Hops)} {es es' : List Entry}

theorem nil : Told S [] [] :=
  ⟨rfl, noted_nil⟩

/-- Events after others, in the scopes that these leave. -/
theorem append {names : List String} (h : Told S events es) (hkeeps : Keeps events names)
    (h' : Told (S.declare names) events' es') : Told S (events ++ events') (es ++ es') :=
  ⟨by rw [entries_append, h.entries, h'.entries], h.noted.append hkeeps h'.noted⟩

/-- The same where the first events declare nothing. -/
theorem append_nil (h : Told S events es) (hkeeps : Keeps events []) (h' : Told S events' es') :
    Told S (events ++ events') (es ++ es') :=
  h.append hkeeps (by rwa [Scopes.declare_nil_right])

/-- Events in a scope of their own. -/
theorem scope (h : Told ([] :: S) events es) : Told S (Event.scope events) es :=
  ⟨by rw [entries_scope, h.entries], noted_scope.mpr h.noted⟩

/-- A declaration before the events that may refer to it. -/
theorem declare {name : String} (h : Told (S.declare [name]) events es) : Told S (.declare name :: events) es :=
  ⟨by rw [entries_declare, h.entries], noted_declare.mpr h.noted⟩

theorem params {ps : List Token} (h : Told (S.declare (ps.map (·.lexeme)).reverse) events es) :
    Told S (ps.map (.declare ·.lexeme) ++ events) es :=
  ⟨by rw [entries_append, entries_params, h.entries]; rfl,
    (noted_params ps).append (keeps_params ps) h.noted⟩

end Told

/-- Outside of classes, no scope declares `this`. -/
def Surroundings.Hides (around : Surroundings) : Prop :=
  around.heritage = .none → Scopes.hops around.scopes "this" = none

namespace Surroundings.Hides

variable {around : Surroundings}

/-- There is no scope outside of everything. -/
theorem topLevel : Surroundings.topLevel.Hides :=
  fun _ => rfl

/-- A scope that does not declare the word. -/
theorem enter (h : around.Hides) {names : List String} (hnames : "this" ∉ names) : (around.enter names).Hides := by
  intro hnone
  have hhops := Scopes.hops_cons names around.scopes "this"
  rw [if_neg hnames, h hnone] at hhops
  exact hhops

/-- Names that are not the word. -/
theorem declaring (h : around.Hides) {names : List String} (hnames : "this" ∉ names) :
    (around.declaring names).Hides := by
  intro hnone
  rw [heritage_declaring] at hnone
  rw [scopes_declaring, Scopes.hops_declare hnames]
  exact h hnone

/-- The sort of the function does not matter. -/
theorem inFunction (h : around.Hides) (kind : FunctionKind) : Hides { around with function := kind } := h

end Surroundings.Hides

/-- A reference is recorded with its distance in the scopes around it, or not at all. -/
theorem records_refer (around : Surroundings) (kind : ReferenceKind) (reference : Reference Unit) :
    Records (refer around kind reference) fun r es => Told around.scopes [.refer kind r] es := by
  refine ⟨_, _, _, refer_adds around kind reference, ?_, ?_⟩
  · rw [entries_refer, entries_nil, List.append_nil]
  · exact noted_cons.mpr ⟨rfl, noted_nil⟩

/-! ## Expressions

References are recorded where they are looked up. For `this` outside of a class, which is complained about and not
looked up, the scopes have no such name. -/

mutual

/-- By the form of the expression. The walk and the events take the parts in the same order. -/
theorem Expr.resolve_records (e : SourceExpr) {around : Surroundings} (haround : around.Hides)
    (hformed : e.Formed Token.Spelled) (pending : Option String) :
    Records (e.resolve around pending) fun e' es => Told around.scopes e'.events es := by
  cases e with
  | assign target value =>
    refine (Expr.resolve_records value haround hformed.2 pending).bind fun value' => ?_
    exact (records_refer around .assign target).map fun target' es' htarget es hvalue =>
      hvalue.append_nil value'.keeps_events htarget
  | binary left operator right | logical left operator right =>
    refine (Expr.resolve_records left haround hformed.1 pending).bind fun left' => ?_
    exact (Expr.resolve_records right haround hformed.2.2 pending).map fun right' es' hright es hleft =>
      hleft.append_nil left'.keeps_events hright
  | call callee paren arguments =>
    refine (Expr.resolve_records callee haround hformed.1 pending).bind fun callee' => ?_
    exact (Expr.resolve_all_records arguments haround hformed.2 pending).map
      fun arguments' es' harguments es hcallee => hcallee.append_nil callee'.keeps_events harguments
  | get object name => exact (Expr.resolve_records object haround hformed.1 pending).map fun _ _ => id
  | grouping inner => exact (Expr.resolve_records inner haround hformed pending).map fun _ _ => id
  | literal value => exact .pure .nil
  | set object name value =>
    refine (Expr.resolve_records value haround hformed.2.2 pending).bind fun value' => ?_
    exact (Expr.resolve_records object haround hformed.1 pending).map fun object' es' hobject es hvalue =>
      hvalue.append_nil value'.keeps_events hobject
  | super keyword method =>
    have hrefer : Records (do return Expr.super (← refer around .super keyword) method)
        fun e' es => Told around.scopes e'.events es :=
      (records_refer around .super keyword).map fun _ _ => id
    rw [Expr.resolve]
    cases around.heritage with
    | none | base => exact (silent_complain _ _).bind hrefer
    | derived => exact hrefer
  | this keyword =>
    rw [Expr.resolve]
    by_cases hnone : around.heritage = .none
    · rw [if_pos hnone]
      -- the reference is not looked up, but it would not be found either
      have hthis : Scopes.hops around.scopes keyword.name.lexeme = none := by
        rw [hformed.2.2.1 hformed.1]
        exact haround hnone
      refine (silent_complain _ _).bind (.pure ⟨rfl, ?_⟩)
      exact noted_cons.mpr ⟨hthis.symm, noted_nil⟩
    · rw [if_neg hnone]
      exact (records_refer around .this keyword).map fun _ _ => id
  | unary operator right => exact (Expr.resolve_records right haround hformed.2 pending).map fun _ _ => id
  | «variable» reference =>
    rw [Expr.resolve]
    refine Records.check (f := fun _ => do return Expr.variable (← refer around .variable reference)) ?_
    exact (records_refer around .variable reference).map fun _ _ => id
  | unknown => exact hformed.elim

theorem Expr.resolve_all_records (es : List SourceExpr) {around : Surroundings} (haround : around.Hides)
    (hformed : Expr.Formed.all Token.Spelled es) (pending : Option String) :
    Records (Expr.resolve.all around pending es) fun es' new => Told around.scopes (Expr.events.all es') new := by
  cases es with
  | nil => exact .pure .nil
  | cons e es =>
    refine (Expr.resolve_records e haround hformed.1 pending).bind fun e' => ?_
    exact (Expr.resolve_all_records es haround hformed.2 pending).map fun es' new' hes new he =>
      he.append_nil e'.keeps_events hes

end

theorem Expr.resolveOption_records (e? : Option SourceExpr) {around : Surroundings} (haround : around.Hides)
    (hformed : Expr.OptionFormed Token.Spelled e?) (pending : Option String) :
    Records (Expr.resolveOption around pending e?) fun e?' es => Told around.scopes (Expr.optionEvents e?') es := by
  cases e? with
  | none => exact .pure .nil
  | some e => exact (Expr.resolve_records e haround hformed pending).map fun _ _ => id

/-! ## Statements

The scopes behind a statement are known from its events. They are the ones in which the walk goes on. -/

mutual

/-- The events of a statement are recorded by its walk, and each reference with the distance that the scopes give it. -/
theorem Stmt.resolve_records (s : SourceStmt) {around : Surroundings} (haround : around.Hides)
    (hformed : s.Formed Token.Spelled) :
    Records (s.resolve around) fun s' es => Told around.scopes s'.events es := by
  have hscopes := around.scopes_declaring
  -- every case follows the walk; what it records is told once the declarations and scopes of the statement are put
  -- around the parts
  cases s with
  | block body =>
    have hbody := Stmt.resolveAll_records body (haround.enter (List.not_mem_nil)) hformed
    exact hbody.map fun body' es hbody => hbody.scope
  | expression value | print value => exact (Expr.resolve_records value haround hformed none).map fun _ _ => id
  | function declaration =>
    have hwords := (Stmt.Formed.declared hformed).1
    have hd := FunDecl.resolve_records declaration ((haround.declaring hwords).inFunction .function) hformed
    rw [Stmt.resolve]
    refine (silent_complainIfDeclared around declaration.name).bind ?_
    refine (hd.giving (FunDecl.resolve_erased declaration _)).map fun d' es ⟨htold, herased⟩ => ?_
    rw [Stmt.events, FunDecl.name_of_erased herased]
    refine Told.declare ?_
    rw [← hscopes]
    exact htold
  | «class» name superclass methods =>
    have hwords := Stmt.Formed.declared (s := .class name superclass methods) hformed
    cases superclass with
    | none =>
      have hinner : ({ around.declaring [name.lexeme] with heritage := .base }.enter ["this"]).Hides :=
        fun h => by cases h
      rw [Stmt.resolve]
      refine (silent_complainIfDeclared around name).bind ?_
      refine (FunDecl.resolveMethods_records methods hinner hformed.2.2).map fun methods' es hmethods => ?_
      refine Told.declare (Told.scope (Told.declare ?_))
      rw [← hscopes]
      exact hmethods
    | some reference =>
      have hinner : (({ around.declaring [name.lexeme] with heritage := .derived }.enter ["super"]).enter
          ["this"]).Hides := fun h => by cases h
      rw [Stmt.resolve]
      refine (silent_complainIfDeclared around name).bind (Records.check (f := fun _ => _) ?_)
      refine (records_refer _ .variable reference).bind fun reference' => ?_
      refine (FunDecl.resolveMethods_records methods hinner hformed.2.2).map
        fun methods' es' hmethods es hreference => ?_
      have htold := hreference.append_nil (keeps_refer _ _)
        (Told.scope (Told.declare (Told.scope (Told.declare hmethods))))
      rw [hscopes] at htold
      exact Told.declare htold
  | «if» condition thenBranch elseBranch =>
    cases elseBranch with
    | none =>
      obtain ⟨hcondition, ⟨-, hthen⟩, -⟩ := hformed
      refine (Expr.resolve_records condition haround hcondition none).bind fun condition' => ?_
      refine (Stmt.resolve_records thenBranch haround hthen).map fun then' es' hthen es hcondition => ?_
      have htold := hcondition.append_nil condition'.keeps_events hthen
      simpa only [Stmt.events, List.append_nil] using htold
    | some s =>
      obtain ⟨hcondition, ⟨hnone, hthen⟩, -, hs⟩ := hformed
      -- the first branch declares nothing, so the second one stands in the same scopes
      have hscopes' : (around.declaring thenBranch.declared).scopes = around.scopes := by
        rw [hnone, hscopes, Scopes.declare_nil_right]
      have hbehind := haround.declaring (Stmt.Formed.declared hthen).1
      have hthen' := (Stmt.resolve_records thenBranch haround hthen).giving (Stmt.resolve_erased thenBranch around)
      refine (Expr.resolve_records condition haround hcondition none).bind fun condition' => ?_
      refine hthen'.bind fun then' => ?_
      refine (Stmt.resolve_records s hbehind hs).map fun s' es₃ hs es₂ ⟨hthen', herased⟩ es₁ hcondition => ?_
      have hkeeps := Stmt.keeps_of_erased herased hthen
      rw [hnone] at hkeeps
      rw [hscopes'] at hs
      exact hcondition.append_nil condition'.keeps_events (hthen'.append_nil hkeeps hs)
  | «return» keyword value =>
    rw [Stmt.resolve]
    refine Records.check (f := fun _ => _) (Records.check (f := fun _ => _) ?_)
    exact (Expr.resolveOption_records value haround hformed none).map fun _ _ => id
  | var name initializer =>
    have hwords := (Stmt.Formed.declared (s := .var name initializer) hformed).1
    rw [Stmt.resolve]
    refine (silent_complainIfDeclared around name).bind ?_
    refine (Expr.resolveOption_records initializer (haround.declaring hwords) hformed.2 _).map
      fun initializer' es hinitializer => Told.declare ?_
    rw [← hscopes]
    exact hinitializer
  | «while» condition body =>
    refine (Expr.resolve_records condition haround hformed.1 none).bind fun condition' => ?_
    exact (Stmt.resolve_records body haround hformed.2.2).map fun body' es' hbody es hcondition =>
      hcondition.append_nil condition'.keeps_events hbody
  | unknown => exact hformed.elim

/-- Each statement in the scopes that those before it leave. -/
theorem Stmt.resolveAll_records (ss : List SourceStmt) {around : Surroundings} (haround : around.Hides)
    (hformed : Stmt.AllFormed Token.Spelled ss) :
    Records (Stmt.resolveAll around ss) fun ss' es => Told around.scopes (Stmt.eventsAll ss') es := by
  cases ss with
  | nil => exact .pure .nil
  | cons s ss =>
    have hbehind := haround.declaring (Stmt.Formed.declared hformed.1).1
    have hs := (Stmt.resolve_records s haround hformed.1).giving (Stmt.resolve_erased s around)
    refine hs.bind fun s' => ?_
    refine (Stmt.resolveAll_records ss hbehind hformed.2).map fun ss' es' hss es ⟨hs, herased⟩ => ?_
    have hkeeps := Stmt.keeps_of_erased herased hformed.1
    rw [around.scopes_declaring] at hss
    exact hs.append hkeeps hss

/-- The parameters and the body are in one scope. -/
theorem FunDecl.resolve_records (d : SourceFun) {around : Surroundings} (haround : around.Hides)
    (hformed : d.Formed Token.Spelled) :
    Records (d.resolve around) fun d' es => Told around.scopes d'.events es := by
  obtain ⟨name, params, body⟩ := d
  obtain ⟨-, hparams, hbody⟩ := hformed
  rw [FunDecl.resolve]
  refine (silent_params _ params).bind ?_
  rw [behind_enter]
  refine (Stmt.resolveAll_records body (haround.enter (names_params hparams).1) hbody).map fun body' es hbody => ?_
  refine Told.scope (Told.params ?_)
  rw [Scopes.declare, List.append_nil]
  exact hbody

/-- Methods declare nothing to each other. -/
theorem FunDecl.resolveMethods_records (ds : List SourceFun) {around : Surroundings} (haround : around.Hides)
    (hformed : FunDecl.AllFormed Token.Spelled ds) :
    Records (FunDecl.resolveMethods around ds) fun ds' es => Told around.scopes (FunDecl.eventsAll ds') es := by
  cases ds with
  | nil => exact .pure .nil
  | cons d ds =>
    have hd := (FunDecl.resolve_records d (haround.inFunction (.ofMethod d.name)) hformed.1).giving
      (FunDecl.resolve_erased d _)
    rw [FunDecl.resolveMethods_cons]
    refine hd.bind fun d' => ?_
    exact (FunDecl.resolveMethods_records ds haround hformed.2).map fun ds' es' hds es ⟨hd, herased⟩ =>
      hd.append_nil (FunDecl.keeps_of_erased herased hformed.1) hds

end

/-! ## Whole programs

At the top there are no scopes, and what is recorded is what the events say. -/

/-- The notes of a resolved program are what the events tell, and the table has an entry for each distance. -/
theorem resolve_records {program : List SourceStmt} (hformed : Stmt.AllFormed Token.Spelled program) :
    Told [] (Stmt.eventsAll (resolve program).1) (resolve program).2.entries := by
  obtain ⟨program', es, ds, hadds, htold⟩ := Stmt.resolveAll_records program Surroundings.Hides.topLevel hformed
  obtain ⟨hprogram, hentries, -⟩ := hadds.resolve
  rw [hprogram, hentries]
  exact htold

end LoxLang
