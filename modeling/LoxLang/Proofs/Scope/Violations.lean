import LoxLang.Proofs.Parse.Complaints
import LoxLang.Proofs.Scope.Resolved
import LoxLang.Proofs.Scope.Rules
import Mathlib

/-!
# The resolver reports what breaks the rules

* **`Resolution.Complains`** — a triple for walks: what a walk adds to the diagnostics, as a multiset, and that it
  meets no fault. A walk goes on behind every complaint, so that the complaints of its parts add up.
* **`resolve_reports_violations`** — what the resolver reports of a program is what is wrong in it.

The walk keeps in its surroundings what the rules read off the enclosures of a place; `Surroundings.Matches` ties the
two together.

Places are listed along the tree, and the walk is followed along the tree as well. Both are compared as multisets,
since the walk comes to some places in another order than they are listed in.
-/

namespace LoxLang

namespace Resolution

/-- A walk without a fault that adds these diagnostics. -/
def Complains {α : Type} (act : Resolution α) (ds : Multiset Diagnostic) : Prop :=
  ∀ found : Findings, found.fault? = none →
    (act.run found).2.fault? = none ∧ ((act.run found).2.diagnostics : Multiset Diagnostic) = found.diagnostics + ds

variable {α β : Type} {act : Resolution α} {f : α → Resolution β} {ds ds' : Multiset Diagnostic}

theorem Adds.complains {a : α} {es : List Entry} {ds : List Diagnostic} (h : act.Adds a es ds) :
    Complains act ds := by
  intro found hfault
  rw [h found hfault]
  exact ⟨hfault, (Multiset.coe_add _ _).symm⟩

/-- A walk that is over complains about nothing. -/
theorem Complains.pure (a : α) : Complains (pure a) 0 :=
  (adds_pure a).complains

/-- The same complaints, counted in another way. -/
theorem Complains.congr (h : Complains act ds) (heq : ds = ds') : Complains act ds' :=
  heq ▸ h

/-- The second walk may use what is known of the result of the first in any case. -/
theorem Complains.bind_given {R : α → Prop} (h : Complains act ds) (hgives : Gives act R)
    (hf : ∀ a, R a → Complains (f a) ds') : Complains (act >>= f) (ds + ds') := by
  intro found hfault
  obtain ⟨hfault₁, hds₁⟩ := h found hfault
  obtain ⟨hfault₂, hds₂⟩ := hf _ (hgives found) (act.run found).2 hfault₁
  refine ⟨hfault₂, ?_⟩
  show (((f (act.run found).1).run (act.run found).2).2.diagnostics : Multiset Diagnostic) = _
  rw [hds₂, hds₁, add_assoc]

/-- The complaints of two walks add up. -/
theorem Complains.bind (h : Complains act ds) (hf : ∀ a, Complains (f a) ds') :
    Complains (act >>= f) (ds + ds') :=
  h.bind_given (R := fun _ => True) (fun _ => trivial) fun a _ => hf a

/-- A last step that reports nothing. -/
theorem Complains.map (h : Complains act ds) {g : α → β} : Complains (do return g (← act)) ds :=
  (h.bind fun a => .pure (g a)).congr (add_zero ds)

theorem complains_complain (cause : Cause) (token : Token) :
    Complains (complain cause token) {.ofToken .resolve cause token} :=
  (complain_adds cause token).complains

/-- To look up a name is no reason to complain. -/
theorem complains_refer (around : Surroundings) (kind : ReferenceKind) (reference : Reference Unit) :
    Complains (refer around kind reference) 0 :=
  (refer_adds around kind reference).complains

/-- A check of a rule, and the walk behind it. -/
theorem Complains.check {c : Prop} [Decidable c] {cause : Cause} {token : Token} {f : Unit → Resolution β}
    (h : Complains (f ()) ds) :
    Complains (if c then complain cause token >>= f else f ())
      ((if c then [Diagnostic.ofToken .resolve cause token] else [] : List Diagnostic) + ds) := by
  by_cases hc : c
  · rw [if_pos hc, if_pos hc]
    exact (complains_complain cause token).bind fun _ => h
  · rw [if_neg hc, if_neg hc]
    exact h.congr (zero_add ds).symm

end Resolution

open Resolution

/-! ## Enclosures and surroundings

The rules of scoping ask what a place is enclosed by. The resolver knows that from its surroundings: which kind of
function and of class it is in, and whether there is a scope at all. -/

namespace Enclosure

/-- The sort of function at a place. -/
def functionKind (E : List Enclosure) : FunctionKind :=
  match nearestFunction? E with
  | none => .none
  | some (.method name) => .ofMethod name
  | some _ => .function

/-- The sort of class at a place. -/
def heritage (E : List Enclosure) : ClassKind :=
  match nearestClass? E with
  | none => .none
  | some (.class false) => .base
  | some _ => .derived

end Enclosure

/-- The surroundings of a walk say what the enclosures of the place say. -/
structure Surroundings.Matches (around : Surroundings) (E : List Enclosure) : Prop where
  function : around.function = Enclosure.functionKind E
  heritage : around.heritage = Enclosure.heritage E
  isEmpty : around.scopes.isEmpty = E.isEmpty

namespace Surroundings.Matches

variable {around : Surroundings} {E : List Enclosure}

theorem topLevel : Surroundings.topLevel.Matches [] :=
  ⟨rfl, rfl, rfl⟩

theorem block (h : around.Matches E) : (around.enter []).Matches (.block :: E) :=
  ⟨h.function, h.heritage, rfl⟩

/-- Names that are declared enclose nothing. -/
theorem declaring (h : around.Matches E) (names : List String) : (around.declaring names).Matches E := by
  unfold Surroundings.declaring
  split
  · exact h
  · next hscopes => exact ⟨h.function, h.heritage, by rw [← h.isEmpty, hscopes]; rfl⟩

theorem behind (h : around.Matches E) (ps : List Token) : (Resolution.behind around ps).Matches E := by
  induction ps generalizing around with
  | nil => exact h
  | cons p ps ih => exact ih (h.declaring _)

/-- In the body of a function. -/
theorem enterFunction (h : around.Matches E) :
    (Surroundings.enter { around with function := .function } []).Matches (.function :: E) :=
  ⟨rfl, h.heritage, rfl⟩

/-- In the body of a method, which is an initializer if it is called so. -/
theorem enterMethod (h : around.Matches E) (name : Token) :
    (Surroundings.enter { around with function := .ofMethod name } []).Matches (.method name :: E) :=
  ⟨rfl, h.heritage, rfl⟩

/-- Inside a class, which has at least the scope of `this`. -/
theorem enterClass (h : around.Matches E) (inherits : Bool) (scope : List String) (scopes : List (List String)) :
    Surroundings.Matches ⟨scope :: scopes, around.function, if inherits then .derived else .base⟩
      (.class inherits :: E) := by
  cases inherits <;> exact ⟨h.function, rfl, rfl⟩

end Surroundings.Matches

/-! ## Breaches

What is wrong in a tree is listed place by place. As a multiset it adds up like the complaints of a walk do. -/

/-- A well-formed statement declares nothing but what it is a declaration of. -/
theorem Stmt.Formed.declared_of_declaredTokens {P : Token → Prop} {s : SourceStmt} (hformed : s.Formed P)
    (h : Stmt.declaredTokens [s] = []) : s.declared = [] := by
  cases s with
  | function d =>
    obtain ⟨name, params, body⟩ := d
    cases h
  | «class» | var => cases h
  | «if» condition thenBranch elseBranch =>
    cases elseBranch with
    | none => rw [Stmt.declared, hformed.2.1.1, List.append_nil]
    | some s => rw [Stmt.declared, hformed.2.1.1, hformed.2.2.1, List.append_nil]
  | «while» condition body => exact hformed.2.1
  | unknown => exact hformed.elim
  | _ => rfl

/-- What is wrong at places. -/
def breaches (ps : List Place) : Multiset Diagnostic :=
  (ps.flatMap Place.violations : List Diagnostic)

@[simp] theorem breaches_nil : breaches [] = 0 := rfl

theorem breaches_cons (p : Place) (ps : List Place) : breaches (p :: ps) = p.violations + breaches ps :=
  (Multiset.coe_add _ _).symm

theorem breaches_singleton (p : Place) : breaches [p] = (p.violations : Multiset Diagnostic) := by
  rw [breaches_cons, breaches_nil, add_zero]

/-- Places of one part and of the other. -/
@[simp] theorem breaches_append (ps qs : List Place) : breaches (ps ++ qs) = breaches ps + breaches qs := by
  simp only [breaches, List.flatMap_append, ← Multiset.coe_add]

/-- What is wrong with declarations that come next in the innermost scope. -/
def Surroundings.duplicates (around : Surroundings) (names : List Token) : Multiset Diagnostic :=
  match around.scopes with
  | [] => 0
  | scope :: _ => ((repeated scope names).map (.ofToken .resolve .duplicateVariable) : List Diagnostic)

namespace Surroundings

variable {around : Surroundings}

/-- Outside of all scopes names may be declared again. -/
theorem duplicates_eq_zero (h : around.scopes = []) (names : List Token) : around.duplicates names = 0 := by
  rw [duplicates, h]

/-- In a scope the names are complained about that it has already, or that came before. -/
theorem duplicates_eq {scope : List String} {scopes : List (List String)} (h : around.scopes = scope :: scopes)
    (names : List Token) :
    around.duplicates names
      = ((repeated scope names).map (.ofToken .resolve .duplicateVariable) : List Diagnostic) := by
  rw [duplicates, h]

@[simp] theorem duplicates_nil : around.duplicates [] = 0 := by
  unfold duplicates
  split <;> rfl

/-- To declare nothing changes nothing. -/
theorem declaring_nil : around.declaring [] = around := by
  obtain ⟨scopes, _, _⟩ := around
  cases scopes <;> rfl

/-- A name is declared before the ones behind it. -/
theorem duplicates_cons (t : Token) (ts : List Token) :
    around.duplicates (t :: ts) = around.duplicates [t] + (around.declaring [t.lexeme]).duplicates ts := by
  cases h : around.scopes with
  | nil =>
    have hbehind : (around.declaring [t.lexeme]).scopes = [] := by rw [declaring, h, h]
    rw [duplicates_eq_zero h, duplicates_eq_zero h, duplicates_eq_zero hbehind, add_zero]
  | cons scope scopes =>
    have hbehind : (around.declaring [t.lexeme]).scopes = (t.lexeme :: scope) :: scopes := by
      rw [declaring, h]
      rfl
    rw [duplicates_eq h, duplicates_eq h, duplicates_eq hbehind]
    simp only [repeated, List.map_append, List.append_nil, ← Multiset.coe_add]

/-- Some names, and then others in a scope that has the first ones. -/
theorem duplicates_append (ps ts : List Token) :
    around.duplicates (ps ++ ts) = around.duplicates ps + (behind around ps).duplicates ts := by
  induction ps generalizing around with
  | nil => exact (congrArg (· + around.duplicates ts) duplicates_nil).trans (zero_add _) |>.symm
  | cons p ps ih =>
    rw [List.cons_append, duplicates_cons, ih, duplicates_cons p ps, add_assoc]
    rfl

/-- What is wrong with the declarations of a new scope is what is wrong with the scope. -/
theorem duplicates_enter (around : Surroundings) (E : List Enclosure) (names : List Token) :
    (around.enter []).duplicates names = (Place.mk E (.scope names)).violations := rfl

/-- What declares no name has none to complain about. -/
theorem duplicates_of_declared_nil {P : Token → Prop} {s : SourceStmt} (hformed : s.Formed P)
    (h : s.declared = []) : around.duplicates (Stmt.declaredTokens [s]) = 0 := by
  cases s with
  | function | «class» | var => cases h
  | _ => exact duplicates_nil

/-- A statement declares its names before the statements behind it. -/
theorem duplicates_declaredTokens {P : Token → Prop} {s : SourceStmt} (hformed : s.Formed P)
    (ss : List SourceStmt) :
    around.duplicates (Stmt.declaredTokens (s :: ss))
      = around.duplicates (Stmt.declaredTokens [s])
        + (around.declaring s.declared).duplicates (Stmt.declaredTokens ss) := by
  cases s with
  | function d =>
    obtain ⟨name, params, body⟩ := d
    exact duplicates_cons _ _
  | «class» | var => exact duplicates_cons _ _
  | block | expression | print | «return» | «while» | «if» | unknown =>
    have hnone := hformed.declared_of_declaredTokens rfl
    rw [hnone, declaring_nil, duplicates_of_declared_nil hformed hnone, zero_add]
    rfl

end Surroundings

/-- The resolver asks whether the innermost scope has the name. -/
theorem complains_complainIfDeclared (around : Surroundings) (name : Token) :
    Complains (complainIfDeclared around name) (around.duplicates [name]) := by
  refine (Complains.check (f := fun _ => pure ()) (.pure ())).congr ?_
  rw [add_zero, Surroundings.declares]
  cases h : around.scopes with
  | nil => rw [Surroundings.duplicates_eq_zero h]; rfl
  | cons scope scopes =>
    rw [Surroundings.duplicates_eq h]
    by_cases hname : name.lexeme ∈ scope <;> simp [repeated, hname]

theorem complains_params (around : Surroundings) (ps : List Token) :
    Complains (params around ps) (around.duplicates ps) := by
  induction ps generalizing around with
  | nil => exact (Complains.pure around).congr Surroundings.duplicates_nil.symm
  | cons p ps ih =>
    rw [params, Surroundings.duplicates_cons]
    exact (complains_complainIfDeclared around p).bind fun _ => ih _

/-! ## Expressions

Only variables, `this` and `super` can be wrong; elsewhere the complaints of the parts add up. -/

section Expressions

variable {around : Surroundings} {E : List Enclosure}

/-- What is wrong with `this` depends on the class around it. -/
theorem violations_this (h : around.heritage = Enclosure.heritage E) (keyword : Token) :
    (Place.mk E (.this keyword)).violations
      = if around.heritage = .none then [.ofToken .resolve .thisOutsideClass keyword] else [] := by
  rw [h, Place.violations, Enclosure.heritage]
  rcases Enclosure.nearestClass? E with - | class?
  · rfl
  · rcases class? with - | - | - | inherits | - <;> try rfl
    cases inherits <;> rfl

/-- So it does with `super`, which needs a superclass besides. -/
theorem violations_super (h : around.heritage = Enclosure.heritage E) (keyword : Token) :
    (Place.mk E (.super keyword)).violations
      = match around.heritage with
        | .none => [.ofToken .resolve .superOutsideClass keyword]
        | .base => [.ofToken .resolve .superWithoutSuperclass keyword]
        | .derived => [] := by
  rw [h, Place.violations, Enclosure.heritage]
  rcases Enclosure.nearestClass? E with - | class?
  · rfl
  · rcases class? with - | - | - | inherits | - <;> try rfl
    cases inherits <;> rfl

variable {P : Token → Prop} (hheritage : around.heritage = Enclosure.heritage E)
include hheritage

set_option linter.unusedSectionVars false in
mutual

/-- By the form of the expression, with the walk and the places taken in the same order. -/
theorem Expr.resolve_complains (e : SourceExpr) (hformed : e.Formed P) :
    Complains (e.resolve around (Enclosure.ownVariable? E)) (breaches (e.places E)) := by
  cases e with
  | assign target value =>
    have hvalue := Expr.resolve_complains value hformed.2
    rw [Expr.resolve]
    refine (hvalue.bind fun value' => ?_).congr (add_zero _)
    exact (complains_refer around .assign target).map
  | binary left operator right | logical left operator right =>
    have hleft := Expr.resolve_complains left hformed.1
    have hright := Expr.resolve_complains right hformed.2.2
    rw [Expr.resolve, Expr.places, breaches_append]
    exact hleft.bind fun left' => hright.map
  | call callee paren arguments =>
    have hcallee := Expr.resolve_complains callee hformed.1
    have harguments := Expr.resolve_all_complains arguments hformed.2
    rw [Expr.resolve, Expr.places, breaches_append]
    exact hcallee.bind fun callee' => harguments.map
  | get object name =>
    rw [Expr.resolve]
    exact (Expr.resolve_complains object hformed.1).map
  | grouping inner =>
    rw [Expr.resolve]
    exact (Expr.resolve_complains inner hformed).map
  | literal value =>
    rw [Expr.resolve]
    exact .pure _
  | set object name value =>
    have hobject := Expr.resolve_complains object hformed.1
    have hvalue := Expr.resolve_complains value hformed.2.2
    -- the value comes first here
    rw [Expr.resolve, Expr.places, breaches_append, add_comm]
    exact hvalue.bind fun value' => hobject.map
  | super keyword method =>
    have hrefer : Complains (do return Expr.super (← refer around .super keyword) method) 0 :=
      (complains_refer around .super keyword).map
    rw [Expr.resolve, Expr.places, breaches_singleton, violations_super hheritage]
    cases around.heritage with
    | none => exact (complains_complain _ _).bind fun _ => hrefer
    | base => exact (complains_complain _ _).bind fun _ => hrefer
    | derived => exact hrefer
  | this keyword =>
    rw [Expr.resolve, Expr.places, breaches_singleton, violations_this hheritage]
    by_cases hnone : around.heritage = .none
    · rw [if_pos hnone, if_pos hnone]
      exact (complains_complain _ _).map
    · rw [if_neg hnone, if_neg hnone]
      exact (complains_refer around .this keyword).map
  | unary operator right =>
    rw [Expr.resolve]
    exact (Expr.resolve_complains right hformed.2).map
  | «variable» reference =>
    have hrefer : Complains (do return Expr.variable (← refer around .variable reference)) 0 :=
      (complains_refer around .variable reference).map
    rw [Expr.resolve, Expr.places, breaches_singleton]
    exact (Complains.check (f := fun _ => _) hrefer).congr (add_zero _)
  | unknown => exact hformed.elim

theorem Expr.resolve_all_complains (es : List SourceExpr) (hformed : Expr.Formed.all P es) :
    Complains (Expr.resolve.all around (Enclosure.ownVariable? E) es) (breaches (Expr.places.all E es)) := by
  cases es with
  | nil => exact .pure _
  | cons e es =>
    have he := Expr.resolve_complains e hformed.1
    have hes := Expr.resolve_all_complains es hformed.2
    rw [Expr.resolve.all, Expr.places.all, breaches_append]
    exact he.bind fun e' => hes.map

end

theorem Expr.resolveOption_complains (e? : Option SourceExpr) (hformed : Expr.OptionFormed P e?) :
    Complains (Expr.resolveOption around (Enclosure.ownVariable? E) e?) (breaches (Expr.optionPlaces E e?)) := by
  cases e? with
  | none => exact .pure _
  | some e => exact (Expr.resolve_complains hheritage e hformed).map

end Expressions

/-! ## Statements

A statement breaks rules by declaring a name again, by itself, or in its parts. Which names its scope has is known to
the walk only, and so duplicates are counted apart from the places. -/

section Statements

variable {P : Token → Prop}

/-- A `return` may be wrong in two ways, outside of functions and with a value in an initializer. -/
theorem violations_return {around : Surroundings} {E : List Enclosure} (h : around.Matches E) (keyword : Token)
    (hasValue : Bool) :
    ((Place.mk E (.return keyword hasValue)).violations : Multiset Diagnostic)
      = ((if around.function = .none then [.ofToken .resolve .topLevelReturn keyword] else [] : List Diagnostic) +
        (if around.function = .initializer ∧ hasValue then
          [.ofToken .resolve .returnValueFromInitializer keyword] else [] : List Diagnostic) :
          Multiset Diagnostic) := by
  rw [h.function, Place.violations, Enclosure.functionKind]
  rcases Enclosure.nearestFunction? E with - | function?
  · rfl
  · rcases function? with - | - | name | - | - <;> try rfl
    -- the name of a method tells its sort
    by_cases hname : name.lexeme = "init" <;> simp [FunctionKind.ofMethod, hname]

mutual

/-- By the form of the statement: what it declares is asked first, then come its parts in the surroundings that match
their enclosures. -/
theorem Stmt.resolve_complains (s : SourceStmt) {around : Surroundings} {E : List Enclosure}
    (hmatches : around.Matches E) (hformed : s.Formed P) (halone : Enclosure.ownVariable? E = none) :
    Complains (s.resolve around) (around.duplicates (Stmt.declaredTokens [s]) + breaches (s.places E)) := by
  -- expressions in statements stand in no initializer, except for that of a variable
  have hexpr : ∀ e : SourceExpr, e.Formed P → Complains (e.resolve around none) (breaches (e.places E)) := by
    intro e he
    rw [← halone]
    exact Expr.resolve_complains hmatches.heritage e he
  cases s with
  | block body =>
    have hbody := Stmt.resolveAll_complains body hmatches.block hformed rfl
    show Complains _ (around.duplicates [] + _)
    rw [Stmt.resolve, Stmt.places, breaches_cons, ← Surroundings.duplicates_enter around,
      Surroundings.duplicates_nil, zero_add]
    exact hbody.map
  | expression value | print value =>
    show Complains _ (around.duplicates [] + _)
    rw [Stmt.resolve, Surroundings.duplicates_nil, zero_add]
    exact (hexpr value hformed).map
  | function declaration =>
    obtain ⟨name, params, body⟩ := declaration
    have hd := FunDecl.resolve_complains ⟨name, params, body⟩ (hmatches.declaring [name.lexeme]).enterFunction
      hformed rfl
    rw [Stmt.resolve]
    exact (complains_complainIfDeclared around name).bind fun _ => hd.map
  | «class» name superclass methods =>
    have hdeclaring := hmatches.declaring [name.lexeme]
    cases superclass with
    | none =>
      have hmethods := FunDecl.resolveMethods_complains methods
        (hdeclaring.enterClass false ["this"] (around.declaring [name.lexeme]).scopes) hformed.2.2
      rw [Stmt.resolve, Stmt.places, breaches_cons]
      exact (complains_complainIfDeclared around name).bind fun _ => hmethods.map.congr (zero_add _).symm
    | some reference =>
      have hmethods := FunDecl.resolveMethods_complains methods
        (hdeclaring.enterClass true ["this"] (["super"] :: (around.declaring [name.lexeme]).scopes)) hformed.2.2
      have hself : ((Place.mk E (.class name (some reference.name))).violations : Multiset Diagnostic)
          = (if reference.name.lexeme = name.lexeme then [.ofToken .resolve .selfInheritance reference.name]
            else [] : List Diagnostic) := by
        rw [Place.violations]
        by_cases h : reference.name.lexeme = name.lexeme <;> simp [h]
      have hread : (Place.mk E (.read reference.name)).violations = [] := by
        rw [Place.violations, halone]
        rfl
      rw [Stmt.resolve, Stmt.places, breaches_cons, breaches_append]
      refine (complains_complainIfDeclared around name).bind fun _ => ?_
      refine (Complains.check (f := fun _ => _) ((complains_refer _ _ _).bind fun _ => hmethods.map)).congr ?_
      show _ = ((Place.mk E (.class name (some reference.name))).violations : Multiset Diagnostic)
        + (breaches [Place.mk E (.read reference.name)] + _)
      rw [hself, breaches_singleton, hread]
      rfl
  | «if» condition thenBranch elseBranch =>
    show Complains _ (around.duplicates [] + _)
    rw [Surroundings.duplicates_nil, zero_add]
    cases elseBranch with
    | none =>
      obtain ⟨hcondition, ⟨hnone, hthen⟩, -⟩ := hformed
      have hthen' := Stmt.resolve_complains thenBranch hmatches hthen halone
      rw [Surroundings.duplicates_of_declared_nil hthen hnone, zero_add] at hthen'
      rw [Stmt.resolve, Stmt.places, breaches_append, breaches_append, add_assoc]
      exact (hexpr condition hcondition).bind fun _ => hthen'.map.congr (add_zero _).symm
    | some s =>
      obtain ⟨hcondition, ⟨hnone, hthen⟩, hnone', hs⟩ := hformed
      have hthen' := Stmt.resolve_complains thenBranch hmatches hthen halone
      have hs' := Stmt.resolve_complains s hmatches hs halone
      rw [Surroundings.duplicates_of_declared_nil hthen hnone, zero_add] at hthen'
      rw [Surroundings.duplicates_of_declared_nil hs hnone', zero_add] at hs'
      -- the first branch declares nothing
      rw [Stmt.resolve, Stmt.places, breaches_append, breaches_append, add_assoc, hnone,
        Surroundings.declaring_nil]
      exact (hexpr condition hcondition).bind fun _ => hthen'.bind fun _ => hs'.map
  | «return» keyword value =>
    have hvalue := Expr.resolveOption_complains hmatches.heritage value hformed
    rw [halone] at hvalue
    show Complains _ (around.duplicates [] + _)
    rw [Stmt.resolve, Stmt.places, breaches_cons, violations_return hmatches, Surroundings.duplicates_nil, zero_add,
      add_assoc]
    exact Complains.check (f := fun _ => _) (Complains.check (f := fun _ => _) hvalue.map)
  | var name initializer =>
    have hpending : (if around.scopes.isEmpty then none else some name.lexeme)
        = Enclosure.ownVariable? (.initializer name :: E) := by
      rw [hmatches.isEmpty]
      cases E <;> rfl
    have hheritage : (around.declaring [name.lexeme]).heritage = Enclosure.heritage (.initializer name :: E) :=
      (hmatches.declaring _).heritage
    rw [Stmt.resolve, Stmt.places, hpending]
    refine (complains_complainIfDeclared around name).bind fun _ => ?_
    exact (Expr.resolveOption_complains hheritage initializer hformed.2).map
  | «while» condition body =>
    have hbody := Stmt.resolve_complains body hmatches hformed.2.2 halone
    rw [Surroundings.duplicates_of_declared_nil hformed.2.2 hformed.2.1, zero_add] at hbody
    show Complains _ (around.duplicates [] + _)
    rw [Stmt.resolve, Stmt.places, breaches_append, Surroundings.duplicates_nil, zero_add]
    exact (hexpr condition hformed.1).bind fun _ => hbody.map
  | unknown => exact hformed.elim

/-- Each statement is walked in the scope that has the names of those before it. -/
theorem Stmt.resolveAll_complains (ss : List SourceStmt) {around : Surroundings} {E : List Enclosure}
    (hmatches : around.Matches E) (hformed : Stmt.AllFormed P ss) (halone : Enclosure.ownVariable? E = none) :
    Complains (Stmt.resolveAll around ss)
      (around.duplicates (Stmt.declaredTokens ss) + breaches (Stmt.placesAll E ss)) := by
  cases ss with
  | nil =>
    show Complains _ (around.duplicates [] + 0)
    rw [Surroundings.duplicates_nil]
    exact .pure _
  | cons s ss =>
    have hs := Stmt.resolve_complains s hmatches hformed.1 halone
    have hss := Stmt.resolveAll_complains ss (hmatches.declaring s.declared) hformed.2 halone
    rw [Stmt.resolveAll, Surroundings.duplicates_declaredTokens hformed.1, Stmt.placesAll, breaches_append]
    refine (hs.bind fun s' => hss.map).congr ?_
    abel

/-- The parameters and the body are in one scope. -/
theorem FunDecl.resolve_complains (d : SourceFun) {around : Surroundings} {E : List Enclosure}
    (hmatches : (around.enter []).Matches E) (hformed : d.Formed P) (halone : Enclosure.ownVariable? E = none) :
    Complains (d.resolve around) (breaches (d.places E)) := by
  obtain ⟨name, params, body⟩ := d
  have hbody := Stmt.resolveAll_complains body (hmatches.behind params) hformed.2.2 halone
  -- the parameters come first in the scope that they share with the body
  rw [FunDecl.resolve, FunDecl.places, breaches_cons, ← Surroundings.duplicates_enter around,
    Surroundings.duplicates_append, add_assoc]
  refine (complains_params _ _).bind_given (gives_params _ _) ?_
  rintro _ rfl
  exact hbody.map

/-- Methods stand in the surroundings of their class. -/
theorem FunDecl.resolveMethods_complains (ds : List SourceFun) {around : Surroundings} {E : List Enclosure}
    (hmatches : around.Matches E) (hformed : FunDecl.AllFormed P ds) :
    Complains (FunDecl.resolveMethods around ds) (breaches (FunDecl.placesAll E ds)) := by
  cases ds with
  | nil => exact .pure _
  | cons d ds =>
    obtain ⟨name, params, body⟩ := d
    have hd := FunDecl.resolve_complains ⟨name, params, body⟩ (hmatches.enterMethod name) hformed.1 rfl
    have hds := FunDecl.resolveMethods_complains ds hmatches hformed.2
    rw [FunDecl.resolveMethods_cons, FunDecl.placesAll, breaches_append]
    exact hd.bind fun _ => hds.map

end

end Statements

/-! ## Whole programs

The places of a program are those of its statements, with nothing around them. -/

/-- The complaints about a well-formed program are what is wrong in it. -/
theorem resolve_complains {P : Token → Prop} {program : List SourceStmt} (hformed : Stmt.AllFormed P program) :
    (resolve program).2.fault? = none ∧ (resolve program).2.diagnostics.Perm (violations program) := by
  obtain ⟨hfault, hds⟩ := Stmt.resolveAll_complains program .topLevel hformed rfl {} rfl
  refine ⟨hfault, Multiset.coe_eq_coe.mp (hds.trans ?_)⟩
  rw [Surroundings.duplicates_eq_zero rfl, zero_add]
  exact zero_add _

/-- What the resolver reports of a program, whatever was wrong with its text, is what breaks the rules in it. -/
theorem resolve_reports_violations {tokens : List Token} {parsed : Parsed} (h : parse tokens = some parsed) :
    (resolve parsed.program).2.fault? = none ∧
      (resolve parsed.program).2.diagnostics.Perm (violations parsed.program) := by
  obtain ⟨w, rest, program, ds, -, -, -, hparse, hformed, -⟩ := parse_ended (ended_of_parse h)
  obtain rfl : parsed = ⟨program, ds⟩ := Option.some.inj (h.symm.trans hparse)
  exact resolve_complains (P := fun _ => True) (hformed _ fun _ _ => trivial)

set_option maxRecDepth 4096 in
/-- Rules are broken inside a method and behind it, on both sides of a syntax error. -/
theorem resolve_reports_violations_nested :
    let source := "class B < B \x7b init(b, b) \x7b return super.c; \x7d \x7d +; return this;"
    let name (lexeme : String) : Token := ⟨.identifier, lexeme, .nil, 1⟩
    let keyword (kind : Kind) (lexeme : String) : Token := ⟨kind, lexeme, .nil, 1⟩
    let initializer : SourceFun := ⟨name "init", [name "b", name "b"],
      [.return (keyword .return "return") (some (.super ⟨keyword .super "super", ()⟩ (name "c")))]⟩
    let program : List SourceStmt := [
      .class (name "B") (some ⟨name "B", ()⟩) [initializer],
      .return (keyword .return "return") (some (.this ⟨keyword .this "this", ()⟩))]
    let parsed : Parsed := ⟨program, [.ofToken .parse .expectExpression (keyword .plus "+")]⟩
    parse (scan source).tokens = some parsed ∧
      violations program = [
        .ofToken .resolve .selfInheritance (name "B"), .ofToken .resolve .duplicateVariable (name "b"),
        .ofToken .resolve .returnValueFromInitializer (keyword .return "return"),
        .ofToken .resolve .topLevelReturn (keyword .return "return"),
        .ofToken .resolve .thisOutsideClass (keyword .this "this")] ∧
      (resolve program).2.fault? = none ∧ (resolve program).2.diagnostics.Perm (violations program) := by
  intro source name keyword initializer program parsed
  have hparse : parse (scan source).tokens = some parsed := by cbv
  exact ⟨hparse, by cbv, resolve_reports_violations hparse⟩

end LoxLang
