import LoxLang.Proofs.Lines.Trees
import LoxLang.Proofs.Scope.Walks
import Mathlib.Data.List.Forall2

/-!
# Resolving on other lines

What a walk of the resolver finds does not depend on what was found before. The walk over a moved tree finds the
entries of the moved tokens, and it complains about them.

* **`Resolution.Twins`** — the triple for both, over two walks.
* **`Stmt.resolveAll_twins`** — a program and the moved program.
* **`resolve_append`** — one program behind another is resolved as if each stood alone.

Two things are shown of every walk, and with one induction: that it moves with the tree, and that it only adds to what
it finds. The second is why a program may be resolved in two parts.
-/

namespace LoxLang

/-- The entry of a token, and the entry of the moved token. -/
def Entry.Moves (L : Lines) (e e' : Entry) : Prop :=
  ∃ kind t depth, e = .of kind t depth ∧ e' = .of kind (t.moved L) depth

namespace Resolution

variable {α β γ : Type}

/-- Two walks of which the second one is the first one moved: in its result, in its entries and in what it complains
about. -/
def Twins (L : Lines) (move : α → α) (act act' : Resolution α) : Prop :=
  ∃ a es ds es', act.Adds a es ds ∧ act'.Adds (move a) es' (ds.map (·.moved L)) ∧ List.Forall₂ (Entry.Moves L) es es'

variable {L : Lines} {act act' : Resolution α} {f f' : α → Resolution β} {move : α → α} {move' : β → β}

namespace Twins

/-- A walk that looks at nothing finds nothing, on either side. -/
theorem pure {a a' : α} (ha : move a = a') : Twins L move (pure a) (pure a') := by
  subst ha
  exact ⟨a, [], [], [], adds_pure a, adds_pure _, .nil⟩

/-- Walks in succession; the second one is given what the first one made of its tree, moved. -/
theorem bind (h : Twins L move act act') (hf : ∀ a, Twins L move' (f a) (f' (move a))) :
    Twins L move' (act >>= f) (act' >>= f') := by
  obtain ⟨a, es, ds, es', hact, hact', hes⟩ := h
  obtain ⟨b, es₁, ds₁, es₁', hb, hb', hes₁⟩ := hf a
  refine ⟨b, es ++ es₁, ds ++ ds₁, es' ++ es₁', hact.bind hb, ?_, List.rel_append hes hes₁⟩
  rw [List.map_append]
  exact hact'.bind hb'

theorem map {g g' : α → β} (h : Twins L move act act') (hg : ∀ a, move' (g a) = g' (move a)) :
    Twins L move' (do return g (← act)) (do return g' (← act')) :=
  h.bind fun a => .pure (hg a)

end Twins

/-- A complaint is about a token of the tree and moves with it. -/
theorem complain_twins (cause : Cause) (token : Token) :
    Twins L id (complain cause token) (complain cause (token.moved L)) :=
  ⟨(), [], _, [], complain_adds cause token, complain_adds cause _, .nil⟩

/-- A check of a rule, and the walk behind it. -/
theorem Twins.check {c : Prop} [Decidable c] {cause : Cause} {token : Token} {f g : Unit → Resolution β}
    (h : Twins L move' (f ()) (g ())) :
    Twins L move' (if c then complain cause token >>= f else f ())
      (if c then complain cause (token.moved L) >>= g else g ()) := by
  by_cases hc : c
  · rw [if_pos hc, if_pos hc]
    exact (complain_twins cause token).bind fun _ => h
  · rw [if_neg hc, if_neg hc]
    exact h

/-- What an entry is found to be, a distance or a global, is decided by names, and these stay. -/
theorem refer_twins (around : Surroundings) (kind : ReferenceKind) (reference : Reference Unit) :
    Twins L (·.moved L) (refer around kind reference) (refer around kind (reference.moved L)) := by
  refine ⟨_, _, _, _, refer_adds around kind reference, refer_adds around kind (reference.moved L), ?_⟩
  rw [Reference.name_moved, Token.lexeme_moved]
  cases around.hops reference.name.lexeme with
  | none => exact .nil
  | some n => exact .cons ⟨kind, reference.name, n, rfl, rfl⟩ .nil

/-- A name is declared twice on both sides or on neither. -/
theorem complainIfDeclared_twins (around : Surroundings) (name : Token) :
    Twins L id (complainIfDeclared around name) (complainIfDeclared around (name.moved L)) :=
  Twins.check (f := fun _ => Pure.pure ()) (g := fun _ => Pure.pure ()) (.pure rfl)

/-- Parameters are declared one after the other, and each may be complained about. -/
theorem params_twins (around : Surroundings) (ps : List Token) :
    Twins L id (params around ps) (params around (ps.map (·.moved L))) := by
  induction ps generalizing around with
  | nil => exact .pure rfl
  | cons p ps ih => exact (complainIfDeclared_twins around p).bind fun _ => ih _

end Resolution

open Resolution

variable {L : Lines} {P : Token → Prop}

/-! ## Expressions

The induction follows the walk. Only references look anything up; every other expression goes on to its parts. -/

mutual

/-- For each form of expression: the walk over the moved one is the moved walk. A formed tree is assumed because the
walk asks a reference for the token it stands at, and that has to be one that can be moved. -/
theorem Expr.resolve_twins (e : SourceExpr) (hformed : e.Formed P) (around : Surroundings)
    (pending : Option String) :
    Twins L (·.moved L) (e.resolve around pending) ((e.moved L).resolve around pending) := by
  cases e with
  | assign target value =>
    have hvalue := Expr.resolve_twins value hformed.2 around pending
    rw [Expr.moved, Expr.resolve, Expr.resolve]
    exact hvalue.bind fun _ => (refer_twins around .assign target).map fun _ => rfl
  | binary left operator right | logical left operator right =>
    have hleft := Expr.resolve_twins left hformed.1 around pending
    have hright := Expr.resolve_twins right hformed.2.2 around pending
    rw [Expr.moved, Expr.resolve, Expr.resolve]
    exact hleft.bind fun _ => hright.map fun _ => rfl
  | call callee paren arguments =>
    have hcallee := Expr.resolve_twins callee hformed.1 around pending
    have harguments := Expr.resolve_all_twins arguments hformed.2 around pending
    rw [Expr.moved, Expr.resolve, Expr.resolve]
    exact hcallee.bind fun _ => harguments.map fun _ => rfl
  | get object name =>
    rw [Expr.moved, Expr.resolve, Expr.resolve]
    exact (Expr.resolve_twins object hformed.1 around pending).map fun _ => rfl
  | grouping inner =>
    rw [Expr.moved, Expr.resolve, Expr.resolve]
    exact (Expr.resolve_twins inner hformed around pending).map fun _ => rfl
  | literal value =>
    rw [Expr.moved, Expr.resolve]
    exact .pure rfl
  | set object name value =>
    have hvalue := Expr.resolve_twins value hformed.2.2 around pending
    have hobject := Expr.resolve_twins object hformed.1 around pending
    rw [Expr.moved, Expr.resolve, Expr.resolve]
    exact hvalue.bind fun _ => hobject.map fun _ => rfl
  | super keyword method =>
    -- the keyword is looked up behind the complaints as well
    have hrefer : Twins L (·.moved L) (do return Expr.super (← refer around .super keyword) method)
        (do return Expr.super (← refer around .super (keyword.moved L)) (method.moved L)) :=
      (refer_twins around .super keyword).map fun _ => rfl
    rw [Expr.moved, Expr.resolve, Expr.resolve]
    cases around.heritage with
    | none => exact (complain_twins _ _).bind fun _ => hrefer
    | base => exact (complain_twins _ _).bind fun _ => hrefer
    | derived => exact hrefer
  | this keyword =>
    rw [Expr.moved, Expr.resolve, Expr.resolve]
    by_cases hnone : around.heritage = .none
    · rw [if_pos hnone, if_pos hnone]
      exact (complain_twins _ _).bind fun _ => .pure rfl
    · rw [if_neg hnone, if_neg hnone]
      exact (refer_twins around .this keyword).map fun _ => rfl
  | unary operator right =>
    rw [Expr.moved, Expr.resolve, Expr.resolve]
    exact (Expr.resolve_twins right hformed.2 around pending).map fun _ => rfl
  | «variable» reference =>
    rw [Expr.moved, Expr.resolve, Expr.resolve]
    exact Twins.check (f := fun _ => _) (g := fun _ => _)
      ((refer_twins around .variable reference).map fun _ => rfl)
  | unknown => exact hformed.elim

/-- The arguments of a call, from left to right. -/
theorem Expr.resolve_all_twins (es : List SourceExpr) (hformed : Expr.Formed.all P es) (around : Surroundings)
    (pending : Option String) :
    Twins L (Expr.moved.all L) (Expr.resolve.all around pending es)
      (Expr.resolve.all around pending (Expr.moved.all L es)) := by
  cases es with
  | nil => exact .pure rfl
  | cons e es =>
    have he := Expr.resolve_twins e hformed.1 around pending
    have hes := Expr.resolve_all_twins es hformed.2 around pending
    rw [Expr.moved.all, Expr.resolve.all, Expr.resolve.all]
    exact he.bind fun _ => hes.map fun _ => rfl

end

theorem Expr.resolveOption_twins (e? : Option SourceExpr) (hformed : Expr.OptionFormed P e?)
    (around : Surroundings) (pending : Option String) :
    Twins L (Option.map (·.moved L)) (Expr.resolveOption around pending e?)
      (Expr.resolveOption around pending (e?.map (·.moved L))) := by
  cases e? with
  | none => exact .pure rfl
  | some e => exact (Expr.resolve_twins e hformed around pending).map fun _ => rfl

/-! ## Statements

A statement changes what the next one sees through the names it declares. By `Stmt.declared_moved` these are the same on
both sides, so that both walks go on in the same surroundings. -/

mutual

/-- For each form of statement, with the surroundings of its parts taken from it on both sides. -/
theorem Stmt.resolve_twins (s : SourceStmt) (hformed : s.Formed P) (around : Surroundings) :
    Twins L (·.moved L) (s.resolve around) ((s.moved L).resolve around) := by
  cases s with
  | block body =>
    rw [Stmt.moved, Stmt.resolve, Stmt.resolve]
    exact (Stmt.resolveAll_twins body hformed (around.enter [])).map fun _ => rfl
  | expression value | print value =>
    rw [Stmt.moved, Stmt.resolve, Stmt.resolve]
    exact (Expr.resolve_twins value hformed around none).map fun _ => rfl
  | function declaration =>
    obtain ⟨name, params, body⟩ := declaration
    have hd := FunDecl.resolve_twins ⟨name, params, body⟩ hformed
      { around.declaring [name.lexeme] with function := .function }
    rw [Stmt.moved, Stmt.resolve, Stmt.resolve]
    exact (complainIfDeclared_twins around name).bind fun _ => hd.map fun _ => rfl
  | «class» name superclass methods =>
    cases superclass with
    | none =>
      have hmethods := FunDecl.resolveMethods_twins methods hformed.2.2
        ({ around.declaring [name.lexeme] with heritage := .base }.enter ["this"])
      rw [Stmt.moved, Stmt.resolve, Stmt.resolve]
      exact (complainIfDeclared_twins around name).bind fun _ => hmethods.map fun _ => rfl
    | some reference =>
      have hmethods := FunDecl.resolveMethods_twins methods hformed.2.2
        (({ around.declaring [name.lexeme] with heritage := .derived }.enter ["super"]).enter ["this"])
      have hrefer := refer_twins (L := L) (around.declaring [name.lexeme]) .variable reference
      rw [Stmt.moved, Stmt.resolve, Stmt.resolve]
      refine (complainIfDeclared_twins around name).bind fun _ => ?_
      exact Twins.check (f := fun _ => _) (g := fun _ => _) (hrefer.bind fun _ => hmethods.map fun _ => rfl)
  | «if» condition thenBranch elseBranch =>
    cases elseBranch with
    | none =>
      obtain ⟨hcondition, ⟨-, hthen⟩, -⟩ := hformed
      have hcondition' := Expr.resolve_twins (L := L) condition hcondition around none
      rw [Stmt.moved, Stmt.resolve, Stmt.resolve]
      exact hcondition'.bind fun _ => (Stmt.resolve_twins thenBranch hthen around).map fun _ => rfl
    | some s =>
      obtain ⟨hcondition, ⟨-, hthen⟩, -, hs⟩ := hformed
      have hcondition' := Expr.resolve_twins (L := L) condition hcondition around none
      -- the resolver comes to the second branch with what the first one has declared
      have hs' := Stmt.resolve_twins s hs (around.declaring thenBranch.declared)
      rw [Stmt.moved, Stmt.resolve, Stmt.resolve, Stmt.declared_moved]
      refine hcondition'.bind fun _ => (Stmt.resolve_twins thenBranch hthen around).bind fun _ => ?_
      exact hs'.map fun _ => rfl
  | «return» keyword value =>
    have hvalue := Expr.resolveOption_twins (L := L) value hformed around none
    rw [Stmt.moved, Stmt.resolve, Stmt.resolve, Option.isSome_map]
    exact Twins.check (f := fun _ => _) (g := fun _ => _)
      (Twins.check (f := fun _ => _) (g := fun _ => _) (hvalue.map fun _ => rfl))
  | var name initializer =>
    rw [Stmt.moved, Stmt.resolve, Stmt.resolve]
    refine (complainIfDeclared_twins around name).bind fun _ => ?_
    exact (Expr.resolveOption_twins initializer hformed.2 _ _).map fun _ => rfl
  | «while» condition body =>
    have hcondition := Expr.resolve_twins (L := L) condition hformed.1 around none
    rw [Stmt.moved, Stmt.resolve, Stmt.resolve]
    exact hcondition.bind fun _ => (Stmt.resolve_twins body hformed.2.2 around).map fun _ => rfl
  | unknown => exact hformed.elim

/-- Statements in succession; each is resolved with the names that those before it declared. -/
theorem Stmt.resolveAll_twins (ss : List SourceStmt) (hformed : Stmt.AllFormed P ss) (around : Surroundings) :
    Twins L (Stmt.movedAll L) (Stmt.resolveAll around ss) (Stmt.resolveAll around (Stmt.movedAll L ss)) := by
  cases ss with
  | nil => exact .pure rfl
  | cons s ss =>
    have hss := Stmt.resolveAll_twins ss hformed.2 (around.declaring s.declared)
    rw [Stmt.movedAll, Stmt.resolveAll, Stmt.resolveAll, Stmt.declared_moved]
    exact (Stmt.resolve_twins s hformed.1 around).bind fun _ => hss.map fun _ => rfl

/-- The body of a function is resolved in a scope with its parameters. -/
theorem FunDecl.resolve_twins (d : SourceFun) (hformed : d.Formed P) (around : Surroundings) :
    Twins L (·.moved L) (d.resolve around) ((d.moved L).resolve around) := by
  obtain ⟨name, params, body⟩ := d
  rw [FunDecl.moved, FunDecl.resolve, FunDecl.resolve]
  exact (params_twins _ params).bind fun inner => (Stmt.resolveAll_twins body hformed.2.2 inner).map fun _ => rfl

/-- Methods do not see each other, so each is resolved in the surroundings of the class. -/
theorem FunDecl.resolveMethods_twins (ds : List SourceFun) (hformed : FunDecl.AllFormed P ds)
    (around : Surroundings) :
    Twins L (FunDecl.movedAll L) (FunDecl.resolveMethods around ds)
      (FunDecl.resolveMethods around (FunDecl.movedAll L ds)) := by
  cases ds with
  | nil => exact .pure rfl
  | cons d ds =>
    obtain ⟨name, params, body⟩ := d
    have hd := FunDecl.resolve_twins ⟨name, params, body⟩ hformed.1 { around with function := .ofMethod name }
    rw [FunDecl.movedAll, FunDecl.resolveMethods_cons, FunDecl.resolveMethods_cons]
    exact hd.bind fun _ => (FunDecl.resolveMethods_twins ds hformed.2 around).map fun _ => rfl

end

/-! ## Whole programs

The walks begin with nothing found, on both lines. -/

/-- A moved program resolves to the moved result, with the entries of the moved tokens and complaints about them. -/
theorem resolve_moved {program : List SourceStmt} (hformed : Stmt.AllFormed P program) :
    (resolve (Stmt.movedAll L program)).1 = Stmt.movedAll L (resolve program).1 ∧
      List.Forall₂ (Entry.Moves L) (resolve program).2.entries (resolve (Stmt.movedAll L program)).2.entries ∧
      (resolve (Stmt.movedAll L program)).2.diagnostics = (resolve program).2.diagnostics.map (·.moved L) := by
  obtain ⟨a, es, ds, es', h, h', hes⟩ := Stmt.resolveAll_twins (L := L) program hformed .topLevel
  obtain ⟨ha, hentries, hdiagnostics⟩ := h.resolve
  obtain ⟨ha', hentries', hdiagnostics'⟩ := h'.resolve
  rw [ha, hentries, hdiagnostics, ha', hentries', hdiagnostics']
  exact ⟨rfl, hes, rfl⟩

/-- Outside of everything nothing is recorded, so that one statement does not know of another. -/
theorem Stmt.resolveAll_append (ss ss' : List SourceStmt) :
    Stmt.resolveAll .topLevel (ss ++ ss')
      = do
        let resolved ← Stmt.resolveAll .topLevel ss
        return resolved ++ (← Stmt.resolveAll .topLevel ss') := by
  induction ss with
  | nil =>
    rw [List.nil_append, Stmt.resolveAll, pure_bind]
    simp only [List.nil_append, bind_pure]
  | cons s ss ih =>
    have htop : Surroundings.topLevel.declaring s.declared = .topLevel := rfl
    rw [List.cons_append, Stmt.resolveAll, Stmt.resolveAll, htop, ih]
    simp only [bind_assoc, pure_bind, List.cons_append]

/-- One program behind another is resolved as if each stood alone. -/
theorem resolve_append {ss ss' : List SourceStmt} (hformed : Stmt.AllFormed P ss)
    (hformed' : Stmt.AllFormed P ss') :
    (resolve (ss ++ ss')).1 = (resolve ss).1 ++ (resolve ss').1 ∧
      (resolve (ss ++ ss')).2.entries = (resolve ss).2.entries ++ (resolve ss').2.entries ∧
      (resolve (ss ++ ss')).2.diagnostics = (resolve ss).2.diagnostics ++ (resolve ss').2.diagnostics := by
  -- each walk is its own twin on the lines where it stands, which says what it adds
  obtain ⟨a, es, ds, -, h, -⟩ := Stmt.resolveAll_twins (L := Token.line) ss hformed .topLevel
  obtain ⟨b, es', ds', -, h', -⟩ := Stmt.resolveAll_twins (L := Token.line) ss' hformed' .topLevel
  have hboth : (Stmt.resolveAll .topLevel (ss ++ ss')).Adds (a ++ b) (es ++ (es' ++ [])) (ds ++ (ds' ++ [])) := by
    rw [Stmt.resolveAll_append]
    exact h.bind (h'.bind (adds_pure _))
  obtain ⟨ha, hentries, hdiagnostics⟩ := h.resolve
  obtain ⟨hb, hentries', hdiagnostics'⟩ := h'.resolve
  rw [ha, hentries, hdiagnostics, hb, hentries', hdiagnostics']
  simpa only [List.append_nil] using hboth.resolve

end LoxLang
