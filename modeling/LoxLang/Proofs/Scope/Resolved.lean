import LoxLang.Proofs.Parse.ProgramSound
import LoxLang.Proofs.Scope.Walks
import Mathlib.Data.List.Nodup

/-!
# What the resolver leaves fits its scopes

* **`resolve_scoped`** — a well-formed program is resolved without a fault; if there is no complaint about it, it
  fits the scopes outside of everything. But for the notes the tree stays the same.

`Yields` is a triple for walks. Its postcondition holds only where the walk had nothing to complain about.

The triple is proved along the definition of the walk, one case for each form. What a postcondition says of the scopes
is what the next part of the tree is walked in, so that the cases only have to be put one behind the other.
-/

namespace LoxLang

/-- A walk without a fault that gives a result with the property unless it complains. Its complaints are not of
a run. -/
def Resolution.Yields {α : Type} (act : Resolution α) (Q : α → Prop) : Prop :=
  ∀ found : Findings, found.fault? = none →
    (act.run found).2.fault? = none ∧
      ∃ ds, (act.run found).2.diagnostics = found.diagnostics ++ ds ∧ (∀ d ∈ ds, d.isRuntime = false) ∧
        (ds = [] → Q (act.run found).1)

namespace Resolution

variable {α β : Type} {act : Resolution α} {f : α → Resolution β} {P : α → Prop} {Q : β → Prop}

theorem Adds.yields {a : α} {es : List Entry} {ds : List Diagnostic} (h : act.Adds a es ds)
    (hstatic : ∀ d ∈ ds, d.isRuntime = false) (hP : ds = [] → P a) : Yields act P := by
  intro found hfault
  rw [h found hfault]
  exact ⟨hfault, ds, rfl, hstatic, hP⟩

/-- A result that is as it should be. -/
theorem Yields.pure {a : α} (h : P a) : Yields (pure a) P :=
  (adds_pure a).yields (List.forall_mem_nil _) fun _ => h

/-- What is known of results may be weakened. -/
theorem Yields.mono {P' : α → Prop} (h : Yields act P) (himp : ∀ a, P a → P' a) : Yields act P' := by
  intro found hfault
  obtain ⟨hfault', ds, hds, hstatic, hP⟩ := h found hfault
  exact ⟨hfault', ds, hds, hstatic, fun hnil => himp _ (hP hnil)⟩

/-- The second walk goes on even if the first complained. Then it is known of the first result what holds in any
case. -/
theorem Yields.bind_given {R : α → Prop} (h : Yields act P) (hgives : Gives act R)
    (hf : ∀ a, R a → Yields (f a) fun b => P a → Q b) : Yields (act >>= f) Q := by
  intro found hfault
  obtain ⟨hfault₁, ds₁, hds₁, hstatic₁, hP⟩ := h found hfault
  obtain ⟨hfault₂, ds₂, hds₂, hstatic₂, hQ⟩ := hf _ (hgives found) (act.run found).2 hfault₁
  refine ⟨hfault₂, ds₁ ++ ds₂, ?_, List.forall_mem_append.mpr ⟨hstatic₁, hstatic₂⟩, fun hnil => ?_⟩
  · change ((f (act.run found).1).run (act.run found).2).2.diagnostics = _
    rw [hds₂, hds₁, List.append_assoc]
  · obtain ⟨hnil₁, hnil₂⟩ := List.append_eq_nil_iff.mp hnil
    exact hQ hnil₂ (hP hnil₁)

/-- If there was no complaint in both, there was none in either; then the second one may use what is known of the first.
-/
theorem Yields.bind (h : Yields act P) (hf : ∀ a, Yields (f a) fun b => P a → Q b) : Yields (act >>= f) Q :=
  h.bind_given (R := fun _ => True) (fun _ => trivial) fun a _ => hf a

/-- Behind a complaint nothing is claimed. -/
theorem yields_complain (cause : Cause) (token : Token) : Yields (complain cause token) fun _ => False :=
  (complain_adds cause token).yields (fun d hd => by rw [List.mem_singleton.mp hd]; rfl) fun h => by cases h

/-- Behind a check, its opposite holds unless there was a complaint. -/
theorem Yields.check {c : Prop} [Decidable c] {cause : Cause} {token : Token} {f : Unit → Resolution β}
    (h : Yields (f ()) fun b => ¬ c → Q b) :
    Yields (if c then complain cause token >>= f else f ()) Q := by
  by_cases hc : c
  · rw [if_pos hc]
    exact (yields_complain cause token).bind fun _ => h.mono fun _ _ hfalse => hfalse.elim
  · rw [if_neg hc]
    exact h.mono fun _ hQ => hQ hc

/-- A reference notes the distance that its name has in the scopes. -/
theorem yields_refer (around : Surroundings) (kind : ReferenceKind) (reference : Reference Unit) :
    Yields (refer around kind reference)
      fun r => r.name = reference.name ∧ r.note = Scopes.hops around.scopes reference.name.lexeme :=
  (refer_adds around kind reference).yields (List.forall_mem_nil _) fun _ => ⟨rfl, rfl⟩

/-- If there was no complaint then the name is new in its scope. -/
theorem yields_complainIfDeclared (around : Surroundings) (name : Token) :
    Yields (complainIfDeclared around name) fun _ => Scopes.Fresh around.scopes name.lexeme := by
  refine Yields.check (f := fun _ => pure ()) (.pure fun h => ?_)
  simpa [Surroundings.declares, Scopes.Fresh] using h

end Resolution

open Resolution

/-! ## What is known of the words of classes

`this` and `super` are declared by classes only. In a text they are spelled by their own kinds of tokens, so that no
declaration has one of them for its name. -/

/-- A token that is spelled as its kind demands, as far as the words of classes are concerned. -/
def Token.Spelled (t : Token) : Prop :=
  (t.kind = .identifier → t.IsName) ∧ (t.kind = .this → t.lexeme = "this") ∧
    (t.kind = .super → t.lexeme = "super")

/-- What the scanner reads as a word is spelled as that word, and what it reads as a name is not. -/
theorem Lexeme.spelled {t : Token} {w : List Char} (h : Lexeme t.kind w) (hw : t.lexeme = String.ofList w) :
    t.Spelled := by
  have hthis : t.kind = .this ↔ _ := h.keyword_iff (by decide)
  have hsuper : t.kind = .super ↔ _ := h.keyword_iff (by decide)
  rw [← hw] at hthis hsuper
  refine ⟨fun hk => ⟨fun hlexeme => ?_, fun hlexeme => ?_⟩, fun hk => ?_, fun hk => ?_⟩
  · rw [hk, hlexeme] at hthis
    exact absurd (hthis.mpr (by decide)) (by decide)
  · rw [hk, hlexeme] at hsuper
    exact absurd (hsuper.mpr (by decide)) (by decide)
  · simpa [Kind.keywords] using hthis.mp hk
  · simpa [Kind.keywords] using hsuper.mp hk

/-- The scopes of the surroundings declare the words of classes that may be used in them. -/
structure Surroundings.Knows (around : Surroundings) : Prop where
  this : around.heritage ≠ .none → ∃ n, Scopes.hops around.scopes "this" = some n
  super : around.heritage = .derived →
    ∃ n, Scopes.hops around.scopes "this" = some n ∧ Scopes.hops around.scopes "super" = some (n + 1)

/-- Outside of classes there is nothing to know. -/
theorem Surroundings.knows_topLevel : Surroundings.topLevel.Knows :=
  ⟨fun h => absurd rfl h, fun h => by cases h⟩

/-- Other scopes with the same distances to the words of classes, or with distances that are greater by the same
number. -/
theorem Surroundings.Knows.shift {around around' : Surroundings} (h : around.Knows)
    (hheritage : around'.heritage = around.heritage) (k : Nat)
    (hthis : Scopes.hops around'.scopes "this" = (Scopes.hops around.scopes "this").map (· + k))
    (hsuper : Scopes.hops around'.scopes "super" = (Scopes.hops around.scopes "super").map (· + k)) :
    around'.Knows := by
  refine ⟨fun hne => ?_, fun hderived => ?_⟩
  · obtain ⟨n, hn⟩ := h.this (by rwa [← hheritage])
    exact ⟨n + k, by rw [hthis, hn]; rfl⟩
  · obtain ⟨n, hn, hn'⟩ := h.super (by rwa [← hheritage])
    refine ⟨n + k, by rw [hthis, hn]; rfl, ?_⟩
    rw [hsuper, hn', Option.map_some, Nat.add_right_comm]

/-- A scope more puts both words one scope further out. -/
theorem Surroundings.Knows.enter {around : Surroundings} (h : around.Knows) (names : List String)
    (hnames : "this" ∉ names ∧ "super" ∉ names) : (around.enter names).Knows := by
  refine h.shift rfl 1 ?_ ?_
  · exact (Scopes.hops_cons _ _ _).trans (if_neg hnames.1)
  · exact (Scopes.hops_cons _ _ _).trans (if_neg hnames.2)

/-- Names are declared in the innermost scope. -/
theorem Surroundings.scopes_declaring (around : Surroundings) (names : List String) :
    (around.declaring names).scopes = Scopes.declare around.scopes names := by
  obtain ⟨scopes, _, _⟩ := around
  cases scopes <;> rfl

/-- To declare names is not to enter a class. -/
theorem Surroundings.heritage_declaring (around : Surroundings) (names : List String) :
    (around.declaring names).heritage = around.heritage := by
  obtain ⟨scopes, _, _⟩ := around
  cases scopes <;> rfl

/-- Other names do not hide the words. -/
theorem Surroundings.Knows.declaring {around : Surroundings} (h : around.Knows) (names : List String)
    (hnames : "this" ∉ names ∧ "super" ∉ names) : (around.declaring names).Knows := by
  refine h.shift (heritage_declaring _ _) 0 ?_ ?_ <;> rw [scopes_declaring]
  · rw [Scopes.hops_declare hnames.1]
    simp
  · rw [Scopes.hops_declare hnames.2]
    simp

/-! ## Expressions

Scopes count a variable within its own initializer as declared, since the walk declares it first; `pending` is its name.
Reading it there is complained about. -/

section Expressions

variable {strict : Bool} {S : Scopes} {pending : Option String} {around : Surroundings}
  (hscopes : around.scopes = S.declare pending.toList)
  (hpending : ∀ a ∈ pending, a ≠ "this" ∧ a ≠ "super")
include hscopes hpending

/-- The words of classes are as far away as they are without the pending variable. -/
theorem hops_word {word : String} (hword : word = "this" ∨ word = "super") :
    Scopes.hops around.scopes word = S.hops word := by
  rw [hscopes]
  refine Scopes.hops_declare fun hmem => ?_
  obtain ⟨hthis, hsuper⟩ := hpending word (by simpa using hmem)
  rcases hword with rfl | rfl
  · exact hthis rfl
  · exact hsuper rfl

variable (haround : around.Knows)
include haround

set_option linter.unusedSectionVars false in
mutual

/-- By the form of the expression. Where the walk would complain there is nothing to show, and otherwise what it checked
is what the scopes ask for. -/
theorem Expr.resolve_yields (e : SourceExpr) (hformed : e.Formed Token.Spelled)
    (hstrict : strict = true → ∀ a ∈ pending, ¬ e.AssignsTo a) :
    Yields (e.resolve around pending) fun e' => e'.Scoped strict S pending := by
  cases e with
  | assign target value =>
    obtain ⟨⟨hkind, hspelled⟩, hvalue⟩ := hformed
    rw [Expr.resolve]
    refine (Expr.resolve_yields value hvalue fun hs a ha h => hstrict hs a ha (.inr h)).bind fun value' => ?_
    refine (yields_refer around .assign target).bind fun target' => ?_
    refine .pure fun htarget hvalue' => ⟨?_, ?_, fun hs hp => ?_, hvalue'⟩
    · rw [htarget.2, htarget.1, hscopes]
    · rw [htarget.1]
      exact hspelled.1 hkind
    · rw [htarget.1] at hp
      exact hstrict hs _ hp (.inl rfl)
  | binary left operator right =>
    obtain ⟨hleft, hoperator, hright⟩ := hformed
    rw [Expr.resolve]
    refine (Expr.resolve_yields left hleft fun hs a ha h => hstrict hs a ha (.inl h)).bind fun left' => ?_
    refine (Expr.resolve_yields right hright fun hs a ha h => hstrict hs a ha (.inr h)).bind fun right' => ?_
    exact .pure fun hright' hleft' => ⟨hleft', hoperator, hright'⟩
  | call callee paren arguments =>
    obtain ⟨hcallee, harguments⟩ := hformed
    rw [Expr.resolve]
    refine (Expr.resolve_yields callee hcallee fun hs a ha h => hstrict hs a ha (.inl h)).bind
      fun callee' => ?_
    refine (Expr.resolve_all_yields arguments harguments fun hs a ha h => hstrict hs a ha (.inr h)).bind
      fun arguments' => ?_
    exact .pure fun harguments' hcallee' => ⟨hcallee', harguments'⟩
  | get object name =>
    rw [Expr.resolve]
    exact (Expr.resolve_yields object hformed.1 hstrict).bind fun object' => .pure id
  | grouping inner =>
    rw [Expr.resolve]
    exact (Expr.resolve_yields inner hformed hstrict).bind fun inner' => .pure id
  | literal value =>
    rw [Expr.resolve]
    exact .pure trivial
  | logical left operator right =>
    obtain ⟨hleft, -, hright⟩ := hformed
    rw [Expr.resolve]
    refine (Expr.resolve_yields left hleft fun hs a ha h => hstrict hs a ha (.inl h)).bind fun left' => ?_
    refine (Expr.resolve_yields right hright fun hs a ha h => hstrict hs a ha (.inr h)).bind fun right' => ?_
    exact .pure fun hright' hleft' => ⟨hleft', hright'⟩
  | set object name value =>
    obtain ⟨hobject, -, hvalue⟩ := hformed
    rw [Expr.resolve]
    refine (Expr.resolve_yields value hvalue fun hs a ha h => hstrict hs a ha (.inr h)).bind fun value' => ?_
    refine (Expr.resolve_yields object hobject fun hs a ha h => hstrict hs a ha (.inl h)).bind fun object' => ?_
    exact .pure fun hobject' hvalue' => ⟨hobject', hvalue'⟩
  | super keyword method =>
    obtain ⟨⟨hkind, hspelled⟩, -⟩ := hformed
    have hlexeme := hspelled.2.2 hkind
    have hrefer : Yields (do return Expr.super (← refer around .super keyword) method) fun e' =>
        around.heritage = .derived → e'.Scoped strict S pending := by
      refine (yields_refer around .super keyword).bind fun keyword' => .pure fun hkeyword' hderived => ?_
      obtain ⟨n, hthis, hsuper⟩ := haround.super hderived
      refine ⟨n, by rw [hkeyword'.2, hlexeme, hsuper], ?_, ?_⟩
      · rw [← hops_word hscopes hpending (.inr rfl), hsuper]
      · rw [← hops_word hscopes hpending (.inl rfl), hthis]
    -- outside of a class with a superclass there is a complaint
    rw [Expr.resolve]
    cases hheritage : around.heritage with
    | none => exact (yields_complain _ _).bind fun _ => hrefer.mono fun _ _ h => h.elim
    | base => exact (yields_complain _ _).bind fun _ => hrefer.mono fun _ _ h => h.elim
    | derived => exact hrefer.mono fun _ h => h hheritage
  | this keyword =>
    have hlexeme := hformed.2.2.1 hformed.1
    rw [Expr.resolve]
    split
    · refine (yields_complain _ _).bind fun _ => ?_
      exact .pure fun h => h.elim
    · rename_i hheritage
      refine (yields_refer around .this keyword).bind fun keyword' => ?_
      refine .pure fun hkeyword' => ⟨by rw [hkeyword'.1, hlexeme], ?_⟩
      obtain ⟨n, hthis⟩ := haround.this hheritage
      refine ⟨n, by rw [hkeyword'.2, hlexeme, hthis], ?_⟩
      rw [← hops_word hscopes hpending (.inl rfl), hthis]
  | unary operator right =>
    rw [Expr.resolve]
    exact (Expr.resolve_yields right hformed.2 hstrict).bind fun right' => .pure fun hright' => ⟨hformed.1, hright'⟩
  | «variable» reference =>
    rw [Expr.resolve]
    refine Yields.check (f := fun _ => do return Expr.variable (← refer around .variable reference)) ?_
    refine (yields_refer around .variable reference).bind fun reference' => ?_
    refine .pure fun hreference' hother => ?_
    have hname : reference.name.lexeme ∉ pending.toList := by simpa using hother
    change reference'.note = _
    rw [hreference'.2, hreference'.1, hscopes, Scopes.hops_declare hname]
  | unknown => exact hformed.elim

theorem Expr.resolve_all_yields (es : List SourceExpr) (hformed : Expr.Formed.all Token.Spelled es)
    (hstrict : strict = true → ∀ a ∈ pending, ¬ Expr.AssignsTo.some a es) :
    Yields (Expr.resolve.all around pending es) fun es' => Expr.Scoped.all strict S pending es' := by
  cases es with
  | nil => exact .pure trivial
  | cons e es =>
    rw [Expr.resolve.all]
    refine (Expr.resolve_yields e hformed.1 fun hs a ha h => hstrict hs a ha (.inl h)).bind fun e' => ?_
    refine (Expr.resolve_all_yields es hformed.2 fun hs a ha h => hstrict hs a ha (.inr h)).bind fun es' => ?_
    exact .pure fun hes' he' => ⟨he', hes'⟩

end

theorem Expr.resolveOption_yields (e? : Option SourceExpr) (hformed : Expr.OptionFormed Token.Spelled e?)
    (hstrict : strict = true → ∀ a ∈ pending, ∀ e ∈ e?, ¬ e.AssignsTo a) :
    Yields (Expr.resolveOption around pending e?) fun e?' => Expr.OptionScoped strict S pending e?' := by
  cases e? with
  | none => exact .pure trivial
  | some e =>
    rw [Expr.resolveOption]
    exact (Expr.resolve_yields hscopes hpending haround e hformed
      fun hs a ha => hstrict hs a ha e rfl).bind fun e' => .pure id

end Expressions

/-- Expressions that belong to no initializer of a local variable. -/
theorem Expr.resolve_alone (strict : Bool) {around : Surroundings} (haround : around.Knows) (e : SourceExpr)
    (hformed : e.Formed Token.Spelled) :
    Yields (e.resolve around none) fun e' => e'.Scoped strict around.scopes none :=
  Expr.resolve_yields (by simp) (by simp) haround e hformed (by simp)

/-- Outside of an initializer no name is pending. -/
theorem Expr.resolveOption_alone (strict : Bool) {around : Surroundings} (haround : around.Knows)
    (e? : Option SourceExpr) (hformed : Expr.OptionFormed Token.Spelled e?) :
    Yields (Expr.resolveOption around none e?) fun e?' => Expr.OptionScoped strict around.scopes none e?' :=
  Expr.resolveOption_yields (by simp) (by simp) haround e? hformed (by simp)

/-! ## Statements

The names that a statement declares are new in their scope, as otherwise there is a complaint; and its branches declare
none, as it is well-formed. -/

/-- A well-formed statement declares no word of classes. -/
theorem Stmt.Formed.declared {s : SourceStmt} (h : s.Formed Token.Spelled) :
    "this" ∉ s.declared ∧ "super" ∉ s.declared := by
  have hname : ∀ t : Token, t.Is Token.Spelled .identifier → "this" ∉ [t.lexeme] ∧ "super" ∉ [t.lexeme] := by
    rintro t ⟨hkind, hspelled⟩
    obtain ⟨hthis, hsuper⟩ := hspelled.1 hkind
    exact ⟨by simpa using fun h => hthis h.symm, by simpa using fun h => hsuper h.symm⟩
  cases s with
  | function declaration =>
    obtain ⟨name, params, body⟩ := declaration
    exact hname _ h.1
  | «class» name superclass methods => exact hname _ h.1
  | var name initializer => exact hname _ h.1
  | «if» condition thenBranch elseBranch =>
    cases elseBranch with
    | none => simp [Stmt.declared, h.2.1.1]
    | some s => simp [Stmt.declared, h.2.1.1, h.2.2.1]
  | «while» condition body => simp [Stmt.declared, h.2.1]
  | _ => simp [Stmt.declared]

/-- The initializer of a variable. If the variable is local, it is pending meanwhile. -/
theorem Expr.resolveOption_initializer {strict : Bool} {around : Surroundings} (haround : around.Knows) {name : Token}
    {initializer : Option SourceExpr} (hformed : (Stmt.var name initializer).Formed Token.Spelled)
    (hstrict : strict = true → (Stmt.var name initializer).NoSelfAssignment (!around.scopes.isEmpty)) :
    let pending := if around.scopes.isEmpty then none else some name.lexeme
    Yields (Expr.resolveOption (around.declaring [name.lexeme]) pending initializer) fun e?' =>
      Expr.OptionScoped strict around.scopes pending e?' := by
  intro pending
  have hpending : ∀ a ∈ pending, around.scopes.isEmpty = false ∧ name.lexeme = a := by
    simp [pending]
  -- a local name is declared while its initializer is resolved; a global one is not
  have hscopes : (around.declaring [name.lexeme]).scopes = Scopes.declare around.scopes pending.toList := by
    rw [around.scopes_declaring]
    cases h : around.scopes <;> simp [pending, h, Scopes.declare]
  have hwords : ∀ a ∈ pending, a ≠ "this" ∧ a ≠ "super" := by
    intro a ha
    obtain ⟨-, rfl⟩ := hpending a ha
    exact hformed.1.2.1 hformed.1.1
  refine Expr.resolveOption_yields hscopes hwords (haround.declaring _ hformed.declared) initializer hformed.2 ?_
  rintro hs a ha e ⟨rfl⟩
  obtain ⟨hlocal, rfl⟩ := hpending a ha
  exact hstrict hs (by rw [hlocal]; rfl)

namespace Resolution

/-- Parameters are put into the scope of the body, the last one in front. -/
theorem behind_eq {scope : List String} {S : Scopes} (around : Surroundings) (ps : List Token)
    (hscopes : around.scopes = scope :: S) :
    behind around ps = { around with scopes := ((ps.map (·.lexeme)).reverse ++ scope) :: S } := by
  induction ps generalizing around scope with
  | nil =>
    obtain ⟨scopes, _, _⟩ := around
    cases hscopes
    rfl
  | cons p ps ih =>
    have hdeclaring : around.declaring [p.lexeme] = { around with scopes := (p.lexeme :: scope) :: S } := by
      rw [Surroundings.declaring, hscopes]
      rfl
    rw [behind, List.foldl_cons, hdeclaring]
    refine (ih _ rfl).trans ?_
    rw [List.map_cons, List.reverse_cons, List.append_assoc]
    rfl

/-- Parameters in a scope of their own. -/
theorem behind_enter (around : Surroundings) (ps : List Token) :
    behind (around.enter []) ps = around.enter (ps.map (·.lexeme)).reverse := by
  rw [behind_eq (around.enter []) ps rfl, List.append_nil]
  rfl

/-- No parameter is a word of classes. -/
theorem names_params {ps : List Token} (h : ∀ p ∈ ps, p.Is Token.Spelled .identifier) :
    "this" ∉ (ps.map (·.lexeme)).reverse ∧ "super" ∉ (ps.map (·.lexeme)).reverse := by
  have hspelled : ∀ p ∈ ps, p.IsName := fun p hp => (h p hp).2.1 (h p hp).1
  simp only [List.mem_reverse, List.mem_map, not_exists, not_and]
  exact ⟨fun p hp => (hspelled p hp).1, fun p hp => (hspelled p hp).2⟩

/-- Without a complaint they are different from each other and from what the scope has. -/
theorem yields_params {scope : List String} {S : Scopes} (around : Surroundings) (ps : List Token)
    (hscopes : around.scopes = scope :: S) :
    Yields (params around ps) fun _ => scope.Nodup → ((ps.map (·.lexeme)).reverse ++ scope).Nodup := by
  induction ps generalizing around scope with
  | nil => exact .pure id
  | cons p ps ih =>
    have hscopes' : (around.declaring [p.lexeme]).scopes = (p.lexeme :: scope) :: S := by
      rw [Surroundings.scopes_declaring, hscopes]
      rfl
    rw [params]
    refine (yields_complainIfDeclared around p).bind fun _ => ?_
    refine (ih _ hscopes').mono fun _ h hfresh hscope => ?_
    rw [Scopes.Fresh, hscopes] at hfresh
    have hnodup := h (List.nodup_cons.mpr ⟨hfresh, hscope⟩)
    rwa [List.map_cons, List.reverse_cons, List.append_assoc]

end Resolution

section Statements

variable {strict : Bool}

mutual

/-- If nothing is complained of, the walk over a statement gives a tree whose distances fit the scopes, and leaves the
innermost scope with what the statement declares. -/
theorem Stmt.resolve_yields (s : SourceStmt) {around : Surroundings} (haround : around.Knows)
    (hformed : s.Formed Token.Spelled)
    (hstrict : strict = true → s.NoSelfAssignment (!around.scopes.isEmpty)) :
    Yields (s.resolve around) fun s' => s'.Scoped strict around.scopes := by
  -- in each case the walk is followed part by part, and in the end the parts are put together to what the scopes ask
  -- of the statement
  cases s with
  | block body =>
    rw [Stmt.resolve]
    exact (Stmt.resolveAll_yields body (haround.enter [] (by simp)) hformed hstrict).bind fun body' => .pure id
  | expression value =>
    rw [Stmt.resolve]
    exact (Expr.resolve_alone strict haround value hformed).bind fun value' => .pure id
  | function declaration =>
    obtain ⟨name, params, body⟩ := declaration
    have hwords := Stmt.Formed.declared hformed
    have hinner : Surroundings.Knows { around.declaring [name.lexeme] with function := .function } :=
      (haround.declaring [name.lexeme] hwords).shift rfl 0 (by simp) (by simp)
    have hdeclaration := FunDecl.resolve_yields ⟨name, params, body⟩ hinner hformed hstrict
    rw [Stmt.resolve]
    refine (yields_complainIfDeclared around name).bind fun _ => ?_
    refine hdeclaration.bind_given (FunDecl.resolve_erased _ _) fun declaration' herased => ?_
    refine .pure fun hdeclaration' hfresh => ?_
    have hname : declaration'.name = name := FunDecl.name_of_erased herased
    refine ⟨by rwa [hname], by rw [hname]; exact hformed.1.2.1 hformed.1.1, ?_⟩
    rw [hname, ← Surroundings.scopes_declaring]
    exact hdeclaration'
  | «class» name superclass methods =>
    obtain ⟨hname, hsuperclass, hmethods⟩ := hformed
    have hwords := Stmt.Formed.declared (s := .class name superclass methods) ⟨hname, hsuperclass, hmethods⟩
    have hscopes := Surroundings.scopes_declaring around [name.lexeme]
    cases superclass with
    | none =>
      have hinner : ({ around.declaring [name.lexeme] with heritage := .base }.enter ["this"]).Knows :=
        ⟨fun _ => ⟨0, rfl⟩, fun h => by cases h⟩
      rw [Stmt.resolve]
      refine (yields_complainIfDeclared around name).bind fun _ => ?_
      refine (FunDecl.resolveMethods_yields methods hinner hmethods hstrict).bind fun methods' => ?_
      refine .pure fun hmethods' hfresh => ⟨hfresh, hname.2.1 hname.1, ?_⟩
      rw [← hscopes]
      exact hmethods'
    | some reference =>
      have hinner : (({ around.declaring [name.lexeme] with heritage := .derived }.enter ["super"]).enter
          ["this"]).Knows :=
        ⟨fun _ => ⟨0, rfl⟩, fun _ => ⟨0, rfl, rfl⟩⟩
      rw [Stmt.resolve]
      refine (yields_complainIfDeclared around name).bind fun _ => ?_
      refine Yields.check (f := fun _ => _) ?_
      refine (yields_refer _ .variable reference).bind fun reference' => ?_
      refine (FunDecl.resolveMethods_yields methods hinner hmethods hstrict).bind fun methods' => ?_
      refine .pure fun hmethods' hreference' hother hfresh => ⟨hfresh, hname.2.1 hname.1, ?_, ?_⟩
      · rw [hreference'.2, hscopes, hreference'.1, Scopes.hops_declare (by simpa using hother)]
      · rw [← hscopes]
        exact hmethods'
  | «if» condition thenBranch elseBranch =>
    cases elseBranch with
    | none =>
      obtain ⟨hcondition, ⟨hnone, hthen⟩, -⟩ := hformed
      have hthen' := Stmt.resolve_yields thenBranch haround hthen fun hs => (hstrict hs).1
      rw [Stmt.resolve]
      refine (Expr.resolve_alone strict haround condition hcondition).bind fun condition' => ?_
      refine hthen'.bind_given (Stmt.resolve_declared _ _) fun thenBranch' hdeclared => ?_
      exact .pure fun hthen' hcondition' => ⟨hcondition', ⟨hdeclared.trans hnone, hthen'⟩, trivial⟩
    | some s =>
      obtain ⟨hcondition, ⟨hnone, hthen⟩, hnone', hs⟩ := hformed
      -- the first branch declares nothing
      have hscopes : (around.declaring thenBranch.declared).scopes = around.scopes := by
        rw [hnone, Surroundings.scopes_declaring, Scopes.declare_nil_right]
      have hbehind := haround.declaring thenBranch.declared (Stmt.Formed.declared hthen)
      have hthen' := Stmt.resolve_yields thenBranch haround hthen fun hs => (hstrict hs).1
      have helse := Stmt.resolve_yields s hbehind hs fun hs => by
        rw [hscopes]
        exact (hstrict hs).2
      rw [hscopes] at helse
      rw [Stmt.resolve]
      refine (Expr.resolve_alone strict haround condition hcondition).bind fun condition' => ?_
      refine hthen'.bind_given (Stmt.resolve_declared _ _) fun thenBranch' hdeclared => ?_
      refine helse.bind_given (Stmt.resolve_declared _ _) fun s' hdeclared' => ?_
      exact .pure fun hs' hthen' hcondition' =>
        ⟨hcondition', ⟨hdeclared.trans hnone, hthen'⟩, hdeclared'.trans hnone', hs'⟩
  | print value =>
    rw [Stmt.resolve]
    exact (Expr.resolve_alone strict haround value hformed).bind fun value' => .pure id
  | «return» keyword value =>
    rw [Stmt.resolve]
    refine Yields.check (f := fun _ => _) (Yields.check (f := fun _ => _) ?_)
    refine (Expr.resolveOption_alone strict haround value hformed).bind fun value' => ?_
    exact .pure fun hvalue' _ _ => hvalue'
  | var name initializer =>
    have hinitializer := Expr.resolveOption_initializer haround hformed hstrict
    rw [Stmt.resolve]
    refine (yields_complainIfDeclared around name).bind fun _ => hinitializer.bind fun initializer' => ?_
    exact .pure fun hinitializer' hfresh => ⟨hfresh, hformed.1.2.1 hformed.1.1, hinitializer'⟩
  | «while» condition body =>
    have hbody := Stmt.resolve_yields body haround hformed.2.2 hstrict
    rw [Stmt.resolve]
    refine (Expr.resolve_alone strict haround condition hformed.1).bind fun condition' => ?_
    refine hbody.bind_given (Stmt.resolve_declared _ _) fun body' hdeclared => ?_
    exact .pure fun hbody' hcondition' => ⟨hcondition', hdeclared.trans hformed.2.1, hbody'⟩
  | unknown => exact hformed.elim

/-- Each statement in the scopes that those before it leave. -/
theorem Stmt.resolveAll_yields (ss : List SourceStmt) {around : Surroundings} (haround : around.Knows)
    (hformed : Stmt.AllFormed Token.Spelled ss)
    (hstrict : strict = true → Stmt.NoSelfAssignments (!around.scopes.isEmpty) ss) :
    Yields (Stmt.resolveAll around ss) fun ss' => Stmt.AllScoped strict around.scopes ss' := by
  cases ss with
  | nil => exact .pure trivial
  | cons s ss =>
    have hscopes := Surroundings.scopes_declaring around s.declared
    have hbehind := haround.declaring s.declared (Stmt.Formed.declared hformed.1)
    -- the rest stands behind the names of the first statement
    have hrest := Stmt.resolveAll_yields ss hbehind hformed.2 fun hs => by
      rw [hscopes, Scopes.isEmpty_declare]
      exact (hstrict hs).2
    rw [Stmt.resolveAll]
    have hs := Stmt.resolve_yields s haround hformed.1 fun hs => (hstrict hs).1
    refine hs.bind_given (Stmt.resolve_declared _ _) fun s' hdeclared => ?_
    refine hrest.bind fun ss' => .pure fun hss' hs' => ⟨hs', ?_⟩
    rw [hdeclared, ← hscopes]
    exact hss'

/-- The parameters and the body are in one scope. -/
theorem FunDecl.resolve_yields (d : SourceFun) {around : Surroundings} (haround : around.Knows)
    (hformed : d.Formed Token.Spelled) (hstrict : strict = true → d.NoSelfAssignment) :
    Yields (d.resolve around) fun d' => d'.Scoped strict around.scopes := by
  obtain ⟨name, params, body⟩ := d
  obtain ⟨-, hparams, hbody⟩ := hformed
  rw [FunDecl.resolve]
  refine (yields_params _ _ rfl).bind_given (gives_params _ _) ?_
  rintro _ rfl
  rw [behind_enter]
  refine (Stmt.resolveAll_yields body (haround.enter _ (names_params hparams)) hbody hstrict).bind fun body' => ?_
  refine .pure fun hbody' hnodup => ⟨?_, fun p hp => (hparams p hp).2.1 (hparams p hp).1, hbody'⟩
  have hreverse := hnodup List.nodup_nil
  rwa [List.append_nil, List.nodup_reverse] at hreverse

/-- Methods declare nothing to each other. -/
theorem FunDecl.resolveMethods_yields (ds : List SourceFun) {around : Surroundings} (haround : around.Knows)
    (hformed : FunDecl.AllFormed Token.Spelled ds) (hstrict : strict = true → FunDecl.NoSelfAssignments ds) :
    Yields (FunDecl.resolveMethods around ds) fun ds' => FunDecl.AllScoped strict around.scopes ds' := by
  cases ds with
  | nil => exact .pure trivial
  | cons d ds =>
    obtain ⟨name, params, body⟩ := d
    have hinner : Surroundings.Knows { around with function := .ofMethod name } :=
      haround.shift rfl 0 (by simp) (by simp)
    have hd := FunDecl.resolve_yields ⟨name, params, body⟩ hinner hformed.1 fun hs => (hstrict hs).1
    rw [FunDecl.resolveMethods_cons]
    refine hd.bind fun d' => ?_
    refine (FunDecl.resolveMethods_yields ds haround hformed.2 fun hs => (hstrict hs).2).bind fun ds' => ?_
    exact .pure fun hds' hd' => ⟨hd', hds'⟩

end

end Statements

/-! ## Whole programs

A program is walked outside of everything, and its globals are in no scope. -/

/-- A well-formed program is resolved without a fault, and all complaints about it come before a run. Unless there
is one, it fits the scopes outside of everything. -/
theorem resolve_scoped (strict : Bool) {program : List SourceStmt} (hformed : Stmt.AllFormed Token.Spelled program)
    (hstrict : strict = true → Stmt.NoSelfAssignments false program) :
    (resolve program).2.fault? = none ∧ (∀ d ∈ (resolve program).2.diagnostics, d.isRuntime = false) ∧
      ((resolve program).2.diagnostics = [] →
        Stmt.AllScoped strict [] (resolve program).1 ∧
          Stmt.erasedAll (resolve program).1 = Stmt.erasedAll program) := by
  obtain ⟨hfault, ds, hds, hstatic, h⟩ :=
    Stmt.resolveAll_yields program Surroundings.knows_topLevel hformed hstrict {} rfl
  have hds' : (resolve program).2.diagnostics = ds := hds
  refine ⟨hfault, fun d hd => hstatic d (hds' ▸ hd), fun hclean => ⟨h ?_, resolve_erased program⟩⟩
  exact hds'.symm.trans hclean

/-- The parser answers on every text, with a well-formed program. -/
theorem parse_scan (source : String) :
    ∃ program ds, parse (scan source).tokens = some ⟨program, ds⟩ ∧ Stmt.AllFormed Token.Spelled program := by
  obtain ⟨ts, eof, htokens, heof, hlexemes⟩ := scan_lexemes source
  have hkinds : ∀ t ∈ ts, t.kind ≠ .eof := by
    intro t ht
    obtain ⟨w, hw, -⟩ := hlexemes t ht
    exact hw.kind_ne_eof
  have hspelled : ∀ t ∈ ts, t.Spelled := by
    intro t ht
    obtain ⟨w, hw, hlexeme⟩ := hlexemes t ht
    exact hw.spelled hlexeme
  obtain ⟨program, ds, hparse, hformed, -⟩ := parse_answers hkinds heof
  rw [htokens]
  exact ⟨program, ds, hparse, hformed _ hspelled⟩

end LoxLang
