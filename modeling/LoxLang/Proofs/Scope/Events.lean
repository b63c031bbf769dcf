import LoxLang.Proofs.Scope.Scoped

/-!
# Programs as events

A program read in the order in which it is resolved: scopes are opened and closed, names are declared and referred to.
Which scopes are open at a place, and what they have declared by then, is a fold over the events before the place and
knows nothing of trees.

* **`Scopes.after`** — the open scopes after events, innermost first.
* **`Scopes.Nearest`** — so many scopes have been opened inside the nearest one that declares a name.
* **`Stmt.keeps_events`** — a statement closes the scopes that it opens, and leaves behind what it declares.
* **`Noted`** — every reference notes the distance that the events before it tell.
-/

namespace LoxLang

/-- What happens at a step of a walk through a program. -/
inductive Event (ρ : Type) where
  | enter
  | leave
  | declare (name : String)
  | refer (kind : ReferenceKind) (reference : Reference ρ)

/-! ## The events of trees

The order is the one in which the resolver walks: a value before its target, a name before its initializer, a class
before its methods. A scope is written around the events that take place in it. -/

section

variable {ρ : Type}

/-- The events of an expression. A value is read before what it is assigned to. -/
def Expr.events : Expr ρ → List (Event ρ)
  | .assign target value => value.events ++ [.refer .assign target]
  | .binary left _ right | .logical left _ right => left.events ++ right.events
  | .call callee _ arguments => callee.events ++ all arguments
  | .get object _ => object.events
  | .grouping inner => inner.events
  | .literal _ => []
  | .set object _ value => value.events ++ object.events
  | .super keyword _ => [.refer .super keyword]
  | .this keyword => [.refer .this keyword]
  | .unary _ right => right.events
  | .variable reference => [.refer .variable reference]
  | .unknown => []
where
  all : List (Expr ρ) → List (Event ρ)
    | [] => []
    | e :: es => e.events ++ all es

/-- The events of an expression that may be missing. -/
def Expr.optionEvents : Option (Expr ρ) → List (Event ρ)
  | some e => e.events
  | none => []

/-- Events in a scope of their own. -/
def Event.scope (es : List (Event ρ)) : List (Event ρ) :=
  .enter :: (es ++ [.leave])

mutual

/-- The events of a statement. A name is declared before what belongs to its declaration is read. -/
def Stmt.events : Stmt ρ → List (Event ρ)
  | .block body => Event.scope (Stmt.eventsAll body)
  | .expression value | .print value => value.events
  | .function declaration => .declare declaration.name.lexeme :: declaration.events
  | .class name superclass methods =>
    .declare name.lexeme ::
      (match superclass with
        | none => Event.scope (.declare "this" :: FunDecl.eventsAll methods)
        | some r =>
          .refer .variable r ::
            Event.scope (.declare "super" :: Event.scope (.declare "this" :: FunDecl.eventsAll methods)))
  | .if condition thenBranch elseBranch =>
    condition.events ++ (thenBranch.events ++
      (match elseBranch with
        | some s => s.events
        | none => []))
  | .return _ value => Expr.optionEvents value
  | .var name initializer => .declare name.lexeme :: Expr.optionEvents initializer
  | .while condition body => condition.events ++ body.events
  | .unknown => []

/-- The events of statements that follow one another. -/
def Stmt.eventsAll : List (Stmt ρ) → List (Event ρ)
  | [] => []
  | s :: ss => s.events ++ Stmt.eventsAll ss

/-- The events of a function behind its name: one scope for the parameters and the body. -/
def FunDecl.events : FunDecl ρ → List (Event ρ)
  | ⟨_, params, body⟩ => Event.scope (params.map (.declare ·.lexeme) ++ Stmt.eventsAll body)

/-- The events of methods. Their names are not declared. -/
def FunDecl.eventsAll : List (FunDecl ρ) → List (Event ρ)
  | [] => []
  | d :: ds => d.events ++ FunDecl.eventsAll ds

end

end

/-! ## Open scopes

Opening puts an empty scope in front, declaring puts a name into the first one. Outside of all scopes nothing is
declared, since globals are not resolved. -/

section

variable {ρ : Type} {S : Scopes} {es es' : List (Event ρ)} {names names' : List String}

namespace Scopes

/-- The open scopes after one event. -/
def step (S : Scopes) : Event ρ → Scopes
  | .enter => [] :: S
  | .leave => S.tail
  | .declare name => S.declare [name]
  | .refer .. => S

/-- The open scopes after events. -/
def after (S : Scopes) (es : List (Event ρ)) : Scopes :=
  es.foldl step S

@[simp] theorem after_nil (S : Scopes) : S.after ([] : List (Event ρ)) = S := rfl

@[simp] theorem after_cons (S : Scopes) (e : Event ρ) (es : List (Event ρ)) :
    S.after (e :: es) = (S.step e).after es := rfl

@[simp] theorem after_append (S : Scopes) (es es' : List (Event ρ)) :
    S.after (es ++ es') = (S.after es).after es' := by
  simp only [after, List.foldl_append]

/-- A scope declares the name, with so many scopes inside it, and none of these declares it too. -/
def Nearest (S : Scopes) (name : String) (d : Nat) : Prop :=
  (∃ scope, S[d]? = some scope ∧ name ∈ scope) ∧
    ∀ i < d, ∀ scope, S[i]? = some scope → name ∉ scope

/-- What the resolver computes by searching outwards is the distance to the nearest scope that declares the name. -/
theorem hops_eq_some_iff (S : Scopes) (name : String) (d : Nat) : S.hops name = some d ↔ S.Nearest name d := by
  -- the innermost scope declares the name, or the search goes on one scope further out
  induction S generalizing d with
  | nil => simp [hops, Nearest]
  | cons scope S ih =>
    rw [hops_cons]
    by_cases hmem : name ∈ scope
    · rw [if_pos hmem]
      constructor
      · rintro ⟨⟩
        exact ⟨⟨scope, rfl, hmem⟩, fun i hi => absurd hi (Nat.not_lt_zero i)⟩
      · rintro ⟨-, hbefore⟩
        cases d with
        | zero => rfl
        | succ d => exact absurd hmem (hbefore 0 (Nat.succ_pos d) scope rfl)
    · rw [if_neg hmem, Option.map_eq_some_iff]
      constructor
      · rintro ⟨d, hd, rfl⟩
        obtain ⟨hdeclares, hbefore⟩ := (ih d).mp hd
        refine ⟨hdeclares, fun i hi other hother => ?_⟩
        cases i with
        | zero =>
          cases hother
          exact hmem
        | succ i => exact hbefore i (Nat.lt_of_succ_lt_succ hi) other hother
      · rintro ⟨⟨other, hother, hdeclares⟩, hbefore⟩
        cases d with
        | zero =>
          cases hother
          exact absurd hdeclares hmem
        | succ d =>
          refine ⟨d, (ih d).mpr ⟨⟨other, hother, hdeclares⟩, fun i hi => ?_⟩, rfl⟩
          exact hbefore (i + 1) (Nat.succ_lt_succ hi)

/-- Names that are declared later are in front. -/
theorem declare_declare (S : Scopes) (names names' : List String) :
    (S.declare names).declare names' = S.declare (names' ++ names) := by
  cases S with
  | nil => rfl
  | cons scope S => simp only [declare, List.append_assoc]

end Scopes

/-! ## Balance

A tree closes what it opens. So the scopes behind a tree are those before it with a few more names in the innermost, and
which names these are can be read off the tree. -/

/-- Events that close the scopes they open, and declare these names in the scope around them. -/
def Event.Keeps (es : List (Event ρ)) (names : List String) : Prop :=
  ∀ S : Scopes, S.after es = S.declare names

namespace Event

theorem keeps_nil : Keeps ([] : List (Event ρ)) [] :=
  fun S => (S.declare_nil_right).symm

/-- A reference declares nothing. -/
theorem keeps_refer (kind : ReferenceKind) (r : Reference ρ) : Keeps [.refer kind r] [] :=
  fun S => (S.declare_nil_right).symm

/-- The names of one after those of the other. -/
theorem Keeps.append (h : Keeps es names) (h' : Keeps es' names') : Keeps (es ++ es') (names' ++ names) := by
  intro S
  rw [Scopes.after_append, h, h', Scopes.declare_declare]

/-- Events that declare nothing, one after the other. -/
theorem Keeps.append_nil (h : Keeps es []) (h' : Keeps es' []) : Keeps (es ++ es') [] :=
  h.append h'

theorem Keeps.declare (h : Keeps es names) (name : String) : Keeps (.declare name :: es) (names ++ [name]) := by
  intro S
  rw [Scopes.after_cons, h]
  exact S.declare_declare [name] names

theorem Keeps.refer (h : Keeps es names) (kind : ReferenceKind) (r : Reference ρ) :
    Keeps (.refer kind r :: es) names :=
  fun S => h S

/-- What was declared in a scope is gone when it is closed. -/
theorem Keeps.scope (h : Keeps es names) : Keeps (scope es) [] := by
  intro S
  rw [Event.scope, Scopes.after_cons, Scopes.after_append, Scopes.step, h, Scopes.declare_nil_right]
  rfl

/-- Parameters are declared in order, so that the last one is in front. -/
theorem keeps_params (ps : List Token) :
    Keeps (ps.map (Event.declare (ρ := ρ) ·.lexeme)) (ps.map (·.lexeme)).reverse := by
  induction ps with
  | nil => exact keeps_nil
  | cons p ps ih =>
    rw [List.map_cons, List.map_cons, List.reverse_cons]
    exact ih.declare p.lexeme

end Event

end

open Event

section

variable {ρ : Type} {P : Token → Prop}

mutual

/-- Expressions declare nothing in the scope around them. -/
theorem Expr.keeps_events (e : Expr ρ) : Keeps e.events [] := by
  cases e with
  | assign target value => exact (Expr.keeps_events value).append_nil (keeps_refer _ target)
  | binary left operator right | logical left operator right =>
    exact (Expr.keeps_events left).append_nil (Expr.keeps_events right)
  | call callee paren arguments =>
    exact (Expr.keeps_events callee).append_nil (Expr.keeps_events_all arguments)
  | get object name => exact Expr.keeps_events object
  | grouping inner => exact Expr.keeps_events inner
  | literal | unknown => exact keeps_nil
  | set object name value => exact (Expr.keeps_events value).append_nil (Expr.keeps_events object)
  | super keyword method => exact keeps_refer _ keyword
  | this keyword => exact keeps_refer _ keyword
  | unary operator right => exact Expr.keeps_events right
  | «variable» reference => exact keeps_refer _ reference

/-- Arguments declare nothing. -/
theorem Expr.keeps_events_all (es : List (Expr ρ)) : Keeps (Expr.events.all es) [] := by
  cases es with
  | nil => exact keeps_nil
  | cons e es => exact (Expr.keeps_events e).append_nil (Expr.keeps_events_all es)

end

/-- A part that may be missing declares nothing. -/
theorem Expr.keeps_optionEvents (e? : Option (Expr ρ)) : Keeps (Expr.optionEvents e?) [] := by
  cases e? with
  | none => exact keeps_nil
  | some e => exact e.keeps_events

mutual

/-- A well-formed statement adds to the scope around it what it declares. -/
theorem Stmt.keeps_events (s : Stmt ρ) (hformed : s.Formed P) : Keeps s.events s.declared := by
  -- branches and bodies declare nothing, as the statement is well-formed
  cases s with
  | block body =>
    obtain ⟨names, hbody⟩ := Stmt.keeps_eventsAll body hformed
    exact hbody.scope
  | expression value | print value => exact value.keeps_events
  | function declaration => exact (FunDecl.keeps_events declaration hformed).declare _
  | «class» name superclass methods =>
    have hmethods := (FunDecl.keeps_eventsAll methods hformed.2.2).declare "this"
    cases superclass with
    | none => exact hmethods.scope.declare name.lexeme
    | some r => exact ((hmethods.scope.declare "super").scope.refer _ r).declare name.lexeme
  | «if» condition thenBranch elseBranch =>
    cases elseBranch with
    | none =>
      obtain ⟨-, ⟨hnone, hthen⟩, -⟩ := hformed
      have hthen' := Stmt.keeps_events thenBranch hthen
      rw [hnone] at hthen'
      rw [Stmt.declared, hnone]
      exact condition.keeps_events.append_nil (hthen'.append_nil keeps_nil)
    | some s =>
      obtain ⟨-, ⟨hnone, hthen⟩, hnone', hs⟩ := hformed
      have hthen' := Stmt.keeps_events thenBranch hthen
      have hs' := Stmt.keeps_events s hs
      rw [hnone] at hthen'
      rw [hnone'] at hs'
      rw [Stmt.declared, hnone, hnone']
      exact condition.keeps_events.append_nil (hthen'.append_nil hs')
  | «return» keyword value => exact Expr.keeps_optionEvents value
  | var name initializer => exact (Expr.keeps_optionEvents initializer).declare name.lexeme
  | «while» condition body =>
    have hbody := Stmt.keeps_events body hformed.2.2
    rw [hformed.2.1] at hbody
    rw [Stmt.declared, hformed.2.1]
    exact condition.keeps_events.append_nil hbody
  | unknown => exact hformed.elim

/-- A list of statements declares some names. -/
theorem Stmt.keeps_eventsAll (ss : List (Stmt ρ)) (hformed : Stmt.AllFormed P ss) :
    ∃ names, Keeps (Stmt.eventsAll ss) names := by
  cases ss with
  | nil => exact ⟨[], keeps_nil⟩
  | cons s ss =>
    obtain ⟨names, hss⟩ := Stmt.keeps_eventsAll ss hformed.2
    exact ⟨_, (Stmt.keeps_events s hformed.1).append hss⟩

/-- A function keeps its names to itself. -/
theorem FunDecl.keeps_events (d : FunDecl ρ) (hformed : d.Formed P) : Keeps d.events [] := by
  obtain ⟨name, params, body⟩ := d
  obtain ⟨names, hbody⟩ := Stmt.keeps_eventsAll body hformed.2.2
  exact ((keeps_params params).append hbody).scope

theorem FunDecl.keeps_eventsAll (ds : List (FunDecl ρ)) (hformed : FunDecl.AllFormed P ds) :
    Keeps (FunDecl.eventsAll ds) [] := by
  cases ds with
  | nil => exact keeps_nil
  | cons d ds => exact (FunDecl.keeps_events d hformed.1).append_nil (FunDecl.keeps_eventsAll ds hformed.2)

end

end

/-! ## Trees that differ in notes

Events are the same for a source tree and the resolved one, except for the notes at references. Scopes do not depend on
these. -/

section

variable {ρ σ : Type} (f : ρ → σ)

/-- An event with its note changed. -/
def Event.mapNotes : Event ρ → Event σ
  | .enter => .enter
  | .leave => .leave
  | .declare name => .declare name
  | .refer kind r => .refer kind ⟨r.name, f r.note⟩

/-- The open scopes do not depend on notes. -/
theorem Scopes.after_map (S : Scopes) (es : List (Event ρ)) : S.after (es.map (Event.mapNotes f)) = S.after es := by
  induction es generalizing S with
  | nil => rfl
  | cons e es ih =>
    rw [List.map_cons, after_cons, after_cons, ih]
    cases e <;> rfl

mutual

/-- The events of an expression with changed notes are its events with changed notes. -/
theorem Expr.events_mapNotes (e : Expr ρ) : (e.mapNotes f).events = e.events.map (Event.mapNotes f) := by
  cases e with
  | assign target value =>
    rw [Expr.mapNotes, Expr.events, Expr.events, List.map_append, Expr.events_mapNotes value]
    rfl
  | binary left operator right | logical left operator right =>
    rw [Expr.mapNotes, Expr.events, Expr.events, List.map_append, Expr.events_mapNotes left,
      Expr.events_mapNotes right]
  | call callee paren arguments =>
    rw [Expr.mapNotes, Expr.events, Expr.events, List.map_append, Expr.events_mapNotes callee,
      Expr.events_mapAll arguments]
  | get object name => exact Expr.events_mapNotes object
  | grouping inner => exact Expr.events_mapNotes inner
  | set object name value =>
    rw [Expr.mapNotes, Expr.events, Expr.events, List.map_append, Expr.events_mapNotes value,
      Expr.events_mapNotes object]
  | unary operator right => exact Expr.events_mapNotes right
  | literal | super | this | «variable» | unknown => rfl

theorem Expr.events_mapAll (es : List (Expr ρ)) :
    Expr.events.all (Expr.mapNotes.mapAll f es) = (Expr.events.all es).map (Event.mapNotes f) := by
  cases es with
  | nil => rfl
  | cons e es =>
    rw [Expr.mapNotes.mapAll, Expr.events.all, Expr.events.all, List.map_append, Expr.events_mapNotes e,
      Expr.events_mapAll es]

end

theorem Expr.optionEvents_map (e? : Option (Expr ρ)) :
    Expr.optionEvents (e?.map (·.mapNotes f)) = (Expr.optionEvents e?).map (Event.mapNotes f) := by
  cases e? with
  | none => rfl
  | some e => exact e.events_mapNotes f

/-- Notes are changed inside of a scope. -/
theorem Event.scope_map (es : List (Event ρ)) :
    (scope es).map (Event.mapNotes f) = scope (es.map (Event.mapNotes f)) := by
  simp [scope, Event.mapNotes]

mutual

/-- The same for statements: the scopes are opened and closed at the same places. -/
theorem Stmt.events_mapNotes (s : Stmt ρ) : (s.mapNotes f).events = s.events.map (Event.mapNotes f) := by
  cases s with
  | block body => rw [Stmt.mapNotes, Stmt.events, Stmt.events, Event.scope_map, Stmt.events_mapAllNotes body]
  | expression value | print value => exact value.events_mapNotes f
  | function declaration =>
    rw [Stmt.mapNotes, Stmt.events, Stmt.events, List.map_cons, FunDecl.events_mapNotes declaration]
    obtain ⟨name, params, body⟩ := declaration
    rfl
  | «class» name superclass methods =>
    have hmethods := FunDecl.events_mapAllNotes methods
    cases superclass with
    | none =>
      simp [Stmt.mapNotes, Stmt.events, Event.scope_map, Event.mapNotes, hmethods]
    | some r =>
      simp [Stmt.mapNotes, Stmt.events, Event.scope_map, Event.mapNotes, hmethods]
  | «if» condition thenBranch elseBranch =>
    have hcondition := condition.events_mapNotes f
    have hthen := Stmt.events_mapNotes thenBranch
    cases elseBranch with
    | none => simp [Stmt.mapNotes, Stmt.events, hcondition, hthen]
    | some s => simp [Stmt.mapNotes, Stmt.events, hcondition, hthen, Stmt.events_mapNotes s]
  | «return» keyword value => exact Expr.optionEvents_map f value
  | var name initializer =>
    rw [Stmt.mapNotes, Stmt.events, Stmt.events, List.map_cons, Expr.optionEvents_map]
    rfl
  | «while» condition body =>
    rw [Stmt.mapNotes, Stmt.events, Stmt.events, List.map_append, condition.events_mapNotes f,
      Stmt.events_mapNotes body]
  | unknown => rfl

theorem Stmt.events_mapAllNotes (ss : List (Stmt ρ)) :
    Stmt.eventsAll (Stmt.mapAllNotes f ss) = (Stmt.eventsAll ss).map (Event.mapNotes f) := by
  cases ss with
  | nil => rfl
  | cons s ss =>
    rw [Stmt.mapAllNotes, Stmt.eventsAll, Stmt.eventsAll, List.map_append, Stmt.events_mapNotes s,
      Stmt.events_mapAllNotes ss]

theorem FunDecl.events_mapNotes (d : FunDecl ρ) : (d.mapNotes f).events = d.events.map (Event.mapNotes f) := by
  obtain ⟨name, params, body⟩ := d
  rw [FunDecl.mapNotes, FunDecl.events, FunDecl.events, Event.scope_map, List.map_append, List.map_map,
    Stmt.events_mapAllNotes body]
  rfl

theorem FunDecl.events_mapAllNotes (ds : List (FunDecl ρ)) :
    FunDecl.eventsAll (FunDecl.mapAllNotes f ds) = (FunDecl.eventsAll ds).map (Event.mapNotes f) := by
  cases ds with
  | nil => rfl
  | cons d ds =>
    rw [FunDecl.mapAllNotes, FunDecl.eventsAll, FunDecl.eventsAll, List.map_append, FunDecl.events_mapNotes d,
      FunDecl.events_mapAllNotes ds]

end

end

section

variable {ρ σ : Type} {P : Token → Prop}

/-- Trees that differ in notes only keep the same. -/
theorem Stmt.keeps_of_erased {s : Stmt ρ} {s' : Stmt σ} (h : s'.erased = s.erased) (hformed : s.Formed P) :
    Keeps s'.events s.declared := by
  intro S
  have hsame : S.after s'.erased.events = S.after s.erased.events := by rw [h]
  rw [Stmt.events_mapNotes, Stmt.events_mapNotes, Scopes.after_map, Scopes.after_map] at hsame
  exact hsame.trans (s.keeps_events hformed S)

/-- What a function is resolved to keeps its names to itself, because the function did. -/
theorem FunDecl.keeps_of_erased {d : FunDecl ρ} {d' : FunDecl σ} (h : d'.erased = d.erased)
    (hformed : d.Formed P) : Keeps d'.events [] := by
  intro S
  have hsame : S.after d'.erased.events = S.after d.erased.events := by rw [h]
  rw [FunDecl.events_mapNotes, FunDecl.events_mapNotes, Scopes.after_map, Scopes.after_map] at hsame
  exact hsame.trans (d.keeps_events hformed S)

end

/-! ## Notes

A note is right if it is the distance in the scopes that are open by then. Since balance tells the scopes behind each
part, it is enough to look at the parts. -/

/-- A reference in these scopes notes the distance to its name. -/
def Event.Right (S : Scopes) : Event Hops → Prop
  | .refer _ r => r.note = S.hops r.name.lexeme
  | _ => True

/-- All references among the events note the distances that the events tell, from these scopes on. -/
def Noted (S : Scopes) : List (Event Hops) → Prop
  | [] => True
  | e :: es => e.Right S ∧ Noted (S.step e) es

section

variable {S : Scopes} {es es' : List (Event Hops)}

@[simp] theorem noted_nil : Noted S [] := trivial

/-- The first event is looked at in the scopes before it, the others in the scopes after it. -/
@[simp] theorem noted_cons {e : Event Hops} : Noted S (e :: es) ↔ e.Right S ∧ Noted (S.step e) es := Iff.rfl

/-- Events that come after others are looked at in the scopes that these leave. -/
@[simp] theorem noted_append : Noted S (es ++ es') ↔ Noted S es ∧ Noted (S.after es) es' := by
  induction es generalizing S with
  | nil => simp
  | cons e es ih => simp only [List.cons_append, noted_cons, ih, Scopes.after_cons, and_assoc]

/-- Closing a scope notes nothing. -/
theorem noted_scope : Noted S (Event.scope es) ↔ Noted ([] :: S) es := by
  simp [Event.scope, Event.Right, Scopes.step]

theorem noted_declare {name : String} : Noted S (.declare name :: es) ↔ Noted (S.declare [name]) es := by
  simp [Event.Right, Scopes.step]

/-- Behind events that are balanced, the walk goes on where it was, but for what they declare. -/
theorem Noted.append {names : List String} (h : Noted S es) (hkeeps : Keeps es names)
    (h' : Noted (S.declare names) es') : Noted S (es ++ es') :=
  noted_append.mpr ⟨h, by rwa [hkeeps S]⟩

/-- If the first events declare nothing then the others stand in the same scopes. -/
theorem Noted.append_nil (h : Noted S es) (hkeeps : Keeps es []) (h' : Noted S es') : Noted S (es ++ es') :=
  h.append hkeeps (by rwa [Scopes.declare_nil_right])

/-- Parameters have no notes. -/
theorem noted_params (ps : List Token) : Noted S (ps.map (.declare ·.lexeme)) := by
  induction ps generalizing S with
  | nil => exact noted_nil
  | cons p ps ih => exact noted_declare.mpr ih

/-- Each reference among the events, by what comes before it. -/
theorem Noted.nearest (h : Noted S es) {past later : List (Event Hops)} {kind : ReferenceKind}
    {r : Reference Hops} (hes : es = past ++ .refer kind r :: later) (d : Nat) :
    r.note = some d ↔ (S.after past).Nearest r.name.lexeme d := by
  subst hes
  have hnote : r.note = (S.after past).hops r.name.lexeme := (noted_append.mp h).2.1
  rw [hnote]
  exact Scopes.hops_eq_some_iff _ _ d

end

/-- The entry in the table for a reference that notes a distance. -/
def Event.entry? : Event Hops → Option Entry
  | .refer kind r => r.note.map fun d => .of kind r.name d
  | _ => none

/-- The entries of the references among the events. -/
def Event.entries (es : List (Event Hops)) : List Entry :=
  es.filterMap entry?

namespace Event

variable {es es' : List (Event Hops)}

@[simp] theorem entries_nil : entries [] = [] := rfl

/-- The entries of one after those of the other. -/
@[simp] theorem entries_append : entries (es ++ es') = entries es ++ entries es' :=
  List.filterMap_append

@[simp] theorem entries_declare {name : String} : entries (.declare name :: es) = entries es := rfl

/-- Opening and closing a scope is not recorded. -/
@[simp] theorem entries_scope : entries (scope es) = entries es := by
  rw [scope]
  show entries (es ++ [.leave]) = _
  rw [entries_append]
  exact List.append_nil _

/-- A reference is recorded if it has a distance. -/
@[simp] theorem entries_refer {kind : ReferenceKind} {r : Reference Hops} :
    entries (.refer kind r :: es) = (r.note.elim [] fun d => [.of kind r.name d]) ++ entries es := by
  cases hnote : r.note <;> simp [entries, entry?, hnote]

/-- Parameters are not recorded. -/
@[simp] theorem entries_params (ps : List Token) : entries (ps.map (.declare ·.lexeme)) = [] := by
  induction ps with
  | nil => rfl
  | cons p ps ih => exact ih

end Event

end LoxLang
