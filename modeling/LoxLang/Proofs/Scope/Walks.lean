import LoxLang.Proofs.Scope.Scoped

/-!
# Walks of the resolver

What a walk gives and adds does not depend on what was found before, as long as there was no fault. So its parts can be
looked at one by one.

* **`Resolution.Gives`** — a triple for walks. Its postcondition speaks of the result alone, and holds in any case.
* **`Resolution.Adds`** — the result of a walk without a fault, with the entries and the diagnostics that it adds.
* **`resolve_erased`** — the resolver changes notes only: whatever a program breaks of the rules, and whatever node of no
  known form it has, the tree stays as it is but for the notes of its references.
-/

namespace LoxLang

/-! ## What walks give

For facts about results that hold whether or not there were complaints. -/

/-- A walk whose result has the property, whatever was found before. -/
def Resolution.Gives {α : Type} (act : Resolution α) (Q : α → Prop) : Prop :=
  ∀ found : Findings, Q (act.run found).1

namespace Resolution

variable {α β : Type} {act : Resolution α} {f : α → Resolution β} {P : α → Prop} {Q : β → Prop}

theorem Gives.pure {a : α} (h : P a) : Gives (pure a) P :=
  fun _ => h

/-- What is known of the first result may be used for the second. -/
theorem Gives.bind (h : Gives act P) (hf : ∀ a, P a → Gives (f a) Q) : Gives (act >>= f) Q :=
  fun found => hf _ (h found) _

theorem Gives.map {g : α → β} (h : Gives act P) (hg : ∀ a, P a → Q (g a)) : Gives (do return g (← act)) Q :=
  h.bind fun a ha => .pure (hg a ha)

/-- The result of the first walk does not matter. -/
theorem Gives.behind (hf : ∀ a, Gives (f a) Q) : Gives (act >>= f) Q :=
  fun _ => hf _ _

/-- A check of a rule, and the walk behind it. -/
theorem Gives.check {c : Prop} [Decidable c] {cause : Cause} {token : Token} {f : Unit → Resolution β}
    (h : Gives (f ()) Q) : Gives (if c then complain cause token >>= f else f ()) Q := by
  by_cases hc : c
  · rw [if_pos hc]
    exact .behind fun _ => h
  · rw [if_neg hc]
    exact h

/-- A reference keeps its name. -/
theorem gives_refer (around : Surroundings) (kind : ReferenceKind) (reference : Reference Unit) :
    Gives (refer around kind reference) fun r => r.name = reference.name := by
  intro found
  change (refer around kind reference found).1.name = _
  simp only [refer]
  split <;> rfl

/-- The surroundings behind parameters. -/
def behind (around : Surroundings) (ps : List Token) : Surroundings :=
  ps.foldl (fun around p => around.declaring [p.lexeme]) around

/-- Behind the parameters the scope has their names. -/
theorem gives_params (around : Surroundings) (ps : List Token) :
    Gives (params around ps) fun inner => inner = behind around ps := by
  induction ps generalizing around with
  | nil => exact .pure rfl
  | cons p ps ih => exact .behind fun _ => ih _

end Resolution

open Resolution

/-! ## What walks add

Walks put their entries and complaints behind what was there. To add nothing twice is what makes a program resolvable in
parts. -/

namespace Resolution

variable {α β : Type}

/-- A walk that gives this result and adds these entries and diagnostics, whatever there was before. -/
def Adds (act : Resolution α) (a : α) (es : List Entry) (ds : List Diagnostic) : Prop :=
  ∀ found : Findings, found.fault? = none → act.run found
    = (a, { found with entries := found.entries ++ es, diagnostics := found.diagnostics ++ ds })

/-- A walk that is over adds nothing. -/
theorem adds_pure (a : α) : Adds (pure a) a [] [] := by
  intro found _
  show (a, found) = (a, { found with entries := found.entries ++ [], diagnostics := found.diagnostics ++ [] })
  rw [List.append_nil, List.append_nil]

/-- One walk adds behind the other. -/
theorem Adds.bind {act : Resolution α} {f : α → Resolution β} {a : α} {b : β} {es es' : List Entry}
    {ds ds' : List Diagnostic} (h : act.Adds a es ds) (hf : (f a).Adds b es' ds') :
    (act >>= f).Adds b (es ++ es') (ds ++ ds') := by
  intro found hfault
  show (f (act.run found).1).run (act.run found).2 = _
  rw [h found hfault, ← List.append_assoc, ← List.append_assoc]
  exact hf _ hfault

/-- A complaint adds a diagnostic. -/
theorem complain_adds (cause : Cause) (token : Token) :
    Adds (complain cause token) () [] [.ofToken .resolve cause token] := by
  intro found hfault
  show ((), if found.fault?.isSome then found else _) = _
  rw [hfault, List.append_nil]
  rfl

/-- A reference adds an entry if its name has a distance. -/
theorem refer_adds (around : Surroundings) (kind : ReferenceKind) (reference : Reference Unit) :
    Adds (refer around kind reference) ⟨reference.name, around.hops reference.name.lexeme⟩
      ((around.hops reference.name.lexeme).elim [] fun n => [.of kind reference.name n]) [] := by
  intro found hfault
  show refer around kind reference found = _
  cases hhops : around.hops reference.name.lexeme with
  | none => simp only [refer, hhops, Option.elim_none, List.append_nil]
  | some n => simp only [refer, hhops, hfault, Option.elim_some, List.append_nil]

end Resolution

/-- What a walk over a program adds is what resolving it gives. -/
theorem Resolution.Adds.resolve {program : List SourceStmt} {a : List (Stmt Hops)} {es : List Entry}
    {ds : List Diagnostic} (h : (Stmt.resolveAll .topLevel program).Adds a es ds) :
    (LoxLang.resolve program).1 = a ∧ (LoxLang.resolve program).2.entries = es ∧
      (LoxLang.resolve program).2.diagnostics = ds := by
  have hrun : LoxLang.resolve program = (a, { entries := es, diagnostics := ds }) := h {} rfl
  rw [hrun]
  exact ⟨rfl, rfl, rfl⟩

/-- A method is resolved as a function of its own sort. -/
theorem FunDecl.resolveMethods_cons (around : Surroundings) (d : SourceFun) (ds : List SourceFun) :
    FunDecl.resolveMethods around (d :: ds)
      = do
        let d ← FunDecl.resolve { around with function := .ofMethod d.name } d
        return d :: (← FunDecl.resolveMethods around ds) := by
  obtain ⟨name, params, body⟩ := d
  rw [FunDecl.resolveMethods, FunDecl.resolve]
  simp only [bind_assoc, pure_bind]

/-! ## The trees but for their notes

Many properties of a tree do not depend on notes. They may be read off the source tree and used for the resolved one. -/

/-- What a statement declares is no matter of notes. -/
theorem Stmt.declared_mapNotes {ρ σ : Type} (f : ρ → σ) (s : Stmt ρ) : (s.mapNotes f).declared = s.declared := by
  cases s with
  | «if» condition thenBranch elseBranch =>
    have hthen := Stmt.declared_mapNotes f thenBranch
    cases elseBranch with
    | none => exact congrArg ([] ++ ·) hthen
    | some s => exact congrArg₂ (· ++ ·) (Stmt.declared_mapNotes f s) hthen
  | «while» condition body => exact Stmt.declared_mapNotes f body
  | function d =>
    obtain ⟨name, params, body⟩ := d
    rfl
  | block | expression | «class» | print | «return» | var | unknown => rfl

/-- Trees that differ in notes declare the same. -/
theorem Stmt.declared_of_erased {ρ σ : Type} {s : Stmt ρ} {s' : Stmt σ} (h : s'.erased = s.erased) :
    s'.declared = s.declared := by
  have hdeclared := congrArg Stmt.declared h
  rwa [Stmt.declared_mapNotes, Stmt.declared_mapNotes] at hdeclared

/-- Functions that differ in notes have the same name. -/
theorem FunDecl.name_of_erased {ρ σ : Type} {d : FunDecl ρ} {d' : FunDecl σ} (h : d'.erased = d.erased) :
    d'.name = d.name := by
  rw [← FunDecl.erased_name d', h, FunDecl.erased_name]

/-! ### Expressions

Each walk rebuilds the node that it came to. -/

mutual

/-- The walk over an expression writes notes and changes nothing else. -/
theorem Expr.resolve_erased (e : SourceExpr) (around : Surroundings) (pending : Option String) :
    Gives (e.resolve around pending) fun e' => e'.erased = e.erased := by
  cases e with
  | assign target value =>
    refine (Expr.resolve_erased value around pending).bind fun value' hvalue => ?_
    refine (gives_refer around .assign target).map fun target' htarget => ?_
    simp only [Expr.erased, Expr.mapNotes, htarget, hvalue]
  | binary left operator right | logical left operator right =>
    refine (Expr.resolve_erased left around pending).bind fun left' hleft => ?_
    refine (Expr.resolve_erased right around pending).map fun right' hright => ?_
    simp only [Expr.erased, Expr.mapNotes, hleft, hright]
  | call callee paren arguments =>
    refine (Expr.resolve_erased callee around pending).bind fun callee' hcallee => ?_
    refine (Expr.resolve_all_erased arguments around pending).map fun arguments' harguments => ?_
    simp only [Expr.erased, Expr.mapNotes, hcallee, harguments]
  | set object name value =>
    refine (Expr.resolve_erased value around pending).bind fun value' hvalue => ?_
    refine (Expr.resolve_erased object around pending).map fun object' hobject => ?_
    simp only [Expr.erased, Expr.mapNotes, hobject, hvalue]
  | get e name | grouping e | unary operator e =>
    refine (Expr.resolve_erased e around pending).map fun e' he => ?_
    simp only [Expr.erased, Expr.mapNotes, he]
  | literal value => exact .pure rfl
  | super keyword method =>
    -- in each case the keyword is looked up at the end, whatever was complained about
    have hrefer : Gives (do return Expr.super (← refer around .super keyword) method)
        fun e' => e'.erased = (Expr.super keyword method).erased := by
      refine (gives_refer around .super keyword).map fun keyword' hkeyword => ?_
      simp only [Expr.erased, Expr.mapNotes, hkeyword]
    rw [Expr.resolve]
    cases around.heritage with
    | none | base => exact .behind fun _ => hrefer
    | derived => exact hrefer
  | this keyword =>
    rw [Expr.resolve]
    by_cases hnone : around.heritage = .none
    · rw [if_pos hnone]
      exact .behind fun _ => .pure rfl
    · rw [if_neg hnone]
      refine (gives_refer around .this keyword).map fun keyword' hkeyword => ?_
      simp only [Expr.erased, Expr.mapNotes, hkeyword]
  | «variable» reference =>
    rw [Expr.resolve]
    refine Gives.check (f := fun _ => do return Expr.variable (← refer around .variable reference)) ?_
    refine (gives_refer around .variable reference).map fun reference' hreference => ?_
    simp only [Expr.erased, Expr.mapNotes, hreference]
  | unknown => exact .behind fun _ => .pure rfl

theorem Expr.resolve_all_erased (es : List SourceExpr) (around : Surroundings) (pending : Option String) :
    Gives (Expr.resolve.all around pending es) fun es' => Expr.erasedAll es' = Expr.erasedAll es := by
  cases es with
  | nil => exact .pure rfl
  | cons e es =>
    refine (Expr.resolve_erased e around pending).bind fun e' he => ?_
    exact (Expr.resolve_all_erased es around pending).map fun es' hes => congrArg₂ List.cons he hes

end

theorem Expr.resolveOption_erased (e? : Option SourceExpr) (around : Surroundings) (pending : Option String) :
    Gives (Expr.resolveOption around pending e?) fun e?' => e?'.map Expr.erased = e?.map Expr.erased := by
  cases e? with
  | none => exact .pure rfl
  | some e => exact (Expr.resolve_erased e around pending).map fun e' he => congrArg some he

/-! ### Statements

Also where there are complaints, since the walk goes on behind them. -/

mutual

/-- The walk over a statement writes notes at its references. The tree without notes is the one it began with. -/
theorem Stmt.resolve_erased (s : SourceStmt) (around : Surroundings) :
    Gives (s.resolve around) fun s' => s'.erased = s.erased := by
  -- names are declared and rules checked before the parts are walked, which gives no trees
  cases s with
  | block body =>
    refine (Stmt.resolveAll_erased body (around.enter [])).map fun body' hbody => ?_
    simp only [Stmt.erased, Stmt.mapNotes, hbody]
  | expression value | print value =>
    refine (Expr.resolve_erased value around none).map fun value' hvalue => ?_
    simp only [Stmt.erased, Stmt.mapNotes, hvalue]
  | function declaration =>
    rw [Stmt.resolve]
    refine .behind fun _ => (FunDecl.resolve_erased declaration _).map fun declaration' hdeclaration => ?_
    simp only [Stmt.erased, Stmt.mapNotes, hdeclaration]
  | «class» name superclass methods =>
    cases superclass with
    | none =>
      rw [Stmt.resolve]
      refine .behind fun _ => (FunDecl.resolveMethods_erased methods _).map fun methods' hmethods => ?_
      simp only [Stmt.erased, Stmt.mapNotes, Option.map_none, hmethods]
    | some reference =>
      rw [Stmt.resolve]
      refine .behind fun _ => Gives.check (f := fun _ => _) ?_
      refine (gives_refer _ .variable reference).bind fun reference' hreference => ?_
      refine (FunDecl.resolveMethods_erased methods _).map fun methods' hmethods => ?_
      simp only [Stmt.erased, Stmt.mapNotes, Option.map_some, hreference, hmethods]
  | «if» condition thenBranch elseBranch =>
    cases elseBranch with
    | none =>
      refine (Expr.resolve_erased condition around none).bind fun condition' hcondition => ?_
      refine (Stmt.resolve_erased thenBranch around).map fun thenBranch' hthen => ?_
      simp only [Stmt.erased, Stmt.mapNotes, hcondition, hthen]
    | some s =>
      refine (Expr.resolve_erased condition around none).bind fun condition' hcondition => ?_
      refine (Stmt.resolve_erased thenBranch around).bind fun thenBranch' hthen => ?_
      refine (Stmt.resolve_erased s _).map fun s' hs => ?_
      simp only [Stmt.erased, Stmt.mapNotes, hcondition, hthen, hs]
  | «return» keyword value =>
    rw [Stmt.resolve]
    refine Gives.check (f := fun _ => _) (Gives.check (f := fun _ => _) ?_)
    exact (Expr.resolveOption_erased value around none).map fun value' hvalue => congrArg (Stmt.return keyword) hvalue
  | var name initializer =>
    rw [Stmt.resolve]
    refine .behind fun _ => (Expr.resolveOption_erased initializer _ _).map fun initializer' hinitializer => ?_
    exact congrArg (Stmt.var name) hinitializer
  | «while» condition body =>
    refine (Expr.resolve_erased condition around none).bind fun condition' hcondition => ?_
    refine (Stmt.resolve_erased body around).map fun body' hbody => ?_
    simp only [Stmt.erased, Stmt.mapNotes, hcondition, hbody]
  | unknown => exact .behind fun _ => .pure rfl

theorem Stmt.resolveAll_erased (ss : List SourceStmt) (around : Surroundings) :
    Gives (Stmt.resolveAll around ss) fun ss' => Stmt.erasedAll ss' = Stmt.erasedAll ss := by
  cases ss with
  | nil => exact .pure rfl
  | cons s ss =>
    refine (Stmt.resolve_erased s around).bind fun s' hs => ?_
    exact (Stmt.resolveAll_erased ss _).map fun ss' hss => congrArg₂ List.cons hs hss

theorem FunDecl.resolve_erased (d : SourceFun) (around : Surroundings) :
    Gives (d.resolve around) fun d' => d'.erased = d.erased := by
  obtain ⟨name, params, body⟩ := d
  rw [FunDecl.resolve]
  refine .behind fun inner => (Stmt.resolveAll_erased body inner).map fun body' hbody => ?_
  simp only [FunDecl.erased, FunDecl.mapNotes, hbody]

theorem FunDecl.resolveMethods_erased (ds : List SourceFun) (around : Surroundings) :
    Gives (FunDecl.resolveMethods around ds) fun ds' => FunDecl.erasedAll ds' = FunDecl.erasedAll ds := by
  cases ds with
  | nil => exact .pure rfl
  | cons d ds =>
    rw [FunDecl.resolveMethods_cons]
    refine (FunDecl.resolve_erased d _).bind fun d' hd => ?_
    exact (FunDecl.resolveMethods_erased ds around).map fun ds' hds => congrArg₂ List.cons hd hds

end

/-- The walk goes on with the names that the source tree declares, and the resolved one declares the same. -/
theorem Stmt.resolve_declared (s : SourceStmt) (around : Surroundings) :
    Gives (s.resolve around) fun s' => s'.declared = s.declared :=
  fun found => Stmt.declared_of_erased (s.resolve_erased around found)

/-! ### Whole programs

A program is walked like the statements of a block, outside of all scopes. -/

/-- The resolver changes notes only. -/
theorem resolve_erased (program : List SourceStmt) :
    Stmt.erasedAll (resolve program).1 = Stmt.erasedAll program :=
  Stmt.resolveAll_erased program .topLevel {}

end LoxLang
