import LoxLang.Proofs.Parse.ProgramComplete

/-!
# Trees on other lines

The line of a token matters to nothing but what is said about errors. Here a text is moved: each token keeps its
kind, lexeme and literal and gets another line.

* **`Stmt.moved`** — a tree with every token moved.
* **`Clause.Derives.moved`** — moved tokens are derived from the moved tree.
* **`Program.append`** — one program behind another.

A move may send each token to a line of its own; nothing asks that it keeps their order. So one theorem serves both
uses made of it: a text pushed down by another one before it, and a text laid out in another way.
-/

namespace LoxLang

/-- The new line of every token. -/
abbrev Lines := Token → Int

variable {ρ : Type} (L : Lines)

/-! ## Moving

A tree is moved by moving the tokens in it. Nothing else of a tree has a line. -/

/-- A token on its new line. -/
def Token.moved (t : Token) : Token :=
  { t with line := L t }

/-- A diagnostic at a moved token. -/
def Diagnostic.moved (d : Diagnostic) : Diagnostic :=
  { d with token? := d.token?.map (·.moved L) }

/-- A reference whose name is moved. -/
def Reference.moved (r : Reference ρ) : Reference ρ :=
  ⟨r.name.moved L, r.note⟩

/-- An expression with every token moved. -/
def Expr.moved : Expr ρ → Expr ρ
  | .assign target value => .assign (target.moved L) value.moved
  | .binary left operator right => .binary left.moved (operator.moved L) right.moved
  | .call callee paren arguments => .call callee.moved (paren.moved L) (all arguments)
  | .get object name => .get object.moved (name.moved L)
  | .grouping inner => .grouping inner.moved
  | .literal value => .literal value
  | .logical left operator right => .logical left.moved (operator.moved L) right.moved
  | .set object name value => .set object.moved (name.moved L) value.moved
  | .super keyword method => .super (keyword.moved L) (method.moved L)
  | .this keyword => .this (keyword.moved L)
  | .unary operator right => .unary (operator.moved L) right.moved
  | .variable reference => .variable (reference.moved L)
  | .unknown => .unknown
where
  all : List (Expr ρ) → List (Expr ρ)
    | [] => []
    | e :: es => e.moved :: all es

mutual

/-- A statement with every token moved. -/
def Stmt.moved : Stmt ρ → Stmt ρ
  | .block body => .block (Stmt.movedAll body)
  | .expression value => .expression (value.moved L)
  | .function declaration => .function declaration.moved
  | .class name superclass methods =>
    .class (name.moved L) (superclass.map (·.moved L)) (FunDecl.movedAll methods)
  | .if condition thenBranch elseBranch =>
    .if (condition.moved L) thenBranch.moved
      (match elseBranch with
        | some s => some s.moved
        | none => none)
  | .print value => .print (value.moved L)
  | .return keyword value => .return (keyword.moved L) (value.map (·.moved L))
  | .var name initializer => .var (name.moved L) (initializer.map (·.moved L))
  | .while condition body => .while (condition.moved L) body.moved
  | .unknown => .unknown

/-- Statements with every token moved. -/
def Stmt.movedAll : List (Stmt ρ) → List (Stmt ρ)
  | [] => []
  | s :: ss => s.moved :: Stmt.movedAll ss

/-- A function with every token moved. -/
def FunDecl.moved : FunDecl ρ → FunDecl ρ
  | ⟨name, params, body⟩ => ⟨name.moved L, params.map (·.moved L), Stmt.movedAll body⟩

/-- Functions with every token moved. -/
def FunDecl.movedAll : List (FunDecl ρ) → List (FunDecl ρ)
  | [] => []
  | d :: ds => d.moved :: FunDecl.movedAll ds

end

/-! ## What stays

All that a rule of the grammar or of scoping asks about a token is its kind or its name, and those it keeps. -/

/-- A moved token is of the kind it was. -/
@[simp] theorem Token.kind_moved (t : Token) : (t.moved L).kind = t.kind := rfl

/-- A moved token spells what it spelled. -/
@[simp] theorem Token.lexeme_moved (t : Token) : (t.moved L).lexeme = t.lexeme := rfl

/-- The name of a reference is a token and moves. -/
@[simp] theorem Reference.name_moved (r : Reference ρ) : (r.moved L).name = r.name.moved L := rfl

/-- What the resolver notes at a reference has no line. -/
@[simp] theorem Reference.note_moved (r : Reference ρ) : (r.moved L).note = r.note := rfl

/-- A call keeps its number of arguments. -/
theorem Expr.length_moved_all (es : List (Expr ρ)) : (Expr.moved.all L es).length = es.length := by
  induction es with
  | nil => rfl
  | cons e es ih => exact congrArg (· + 1) ih

/-- A list of statements may be cut before it is moved or afterwards. -/
theorem Stmt.movedAll_append (ss ss' : List (Stmt ρ)) :
    Stmt.movedAll L (ss ++ ss') = Stmt.movedAll L ss ++ Stmt.movedAll L ss' := by
  induction ss with
  | nil => rfl
  | cons s ss ih => exact congrArg (s.moved L :: ·) ih

/-- The name of a function is a token and moves. -/
@[simp] theorem FunDecl.name_moved (d : FunDecl ρ) : (d.moved L).name = d.name.moved L := by
  cases d
  rfl

/-- The parameters of a function are moved one by one. -/
@[simp] theorem FunDecl.params_moved (d : FunDecl ρ) : (d.moved L).params = d.params.map (·.moved L) := by
  cases d
  rfl

/-- The body of a function is moved statement by statement. -/
@[simp] theorem FunDecl.body_moved (d : FunDecl ρ) : (d.moved L).body = Stmt.movedAll L d.body := by
  cases d
  rfl

/-- A moved declaration declares the same name. -/
theorem Stmt.declared_moved (s : Stmt ρ) : (s.moved L).declared = s.declared := by
  cases s with
  | «if» condition thenBranch elseBranch =>
    have hthen := Stmt.declared_moved thenBranch
    cases elseBranch with
    | none => exact congrArg ([] ++ ·) hthen
    | some s => exact congrArg₂ (· ++ ·) (Stmt.declared_moved s) hthen
  | «while» condition body => exact Stmt.declared_moved body
  | function d =>
    obtain ⟨name, params, body⟩ := d
    rfl
  | block | expression | «class» | print | «return» | var | unknown => rfl

/-! ## The grammar

Rule by rule: a rule looks at the kinds of the tokens of its own and leaves the rest to the rules below it, so that the
moved tokens are put together by the same rules to the moved tree. -/

/-- A phrase with every token moved. -/
def Phrase.moved : Phrase → Phrase
  | .expr l e => .expr l (e.moved L)
  | .operations r left e => .operations r (left.moved L) (e.moved L)
  | .suffixes target e => .suffixes (target.moved L) (e.moved L)
  | .arguments es => .arguments (Expr.moved.all L es)
  | .argumentList es => .argumentList (Expr.moved.all L es)

/-- Both sorts of binary nodes, the logical and the arithmetical one, are moved part by part. -/
theorem Rank.node_moved (r : Rank) (left right : SourceExpr) (operator : Token) :
    (r.node left operator right).moved L = r.node (left.moved L) (operator.moved L) (right.moved L) := by
  cases r <;> rfl

variable {L}

/-- The rules ask for the kinds and literals of tokens only. -/
theorem Phrase.Derives.moved {p : Phrase} {w : List Token} (h : p.Derives .standard w) :
    (p.moved L).Derives .standard (w.map (·.moved L)) := by
  -- each rule is applied again to the moved parts; lists of tokens are moved piece by piece
  induction h with
  | assign hname hequals _ ih => exact .assign hname hequals ih
  | @set object value dot name equals w₁ w₂ _ hdot hname hequals _ ih₁ ih₂ =>
    have hdot' : (dot.moved L).kind = .dot := hdot
    rw [List.map_append]
    exact .set ih₁ hdot' hname hequals ih₂
  | misplaced hany => cases hany
  | disjunction _ ih => exact .disjunction ih
  | joined _ _ ih₁ ih₂ =>
    rw [List.map_append]
    exact .joined ih₁ ih₂
  | noOperation => exact .noOperation
  | operation hoperator _ _ ih₁ ih₂ =>
    rw [List.map_cons, List.map_append]
    rw [Phrase.moved, Rank.node_moved] at ih₂
    exact .operation hoperator ih₁ ih₂
  | unary hoperator _ ih => exact .unary hoperator ih
  | noUnary _ ih => exact .noUnary ih
  | call _ _ ih₁ ih₂ =>
    rw [List.map_append]
    exact .call ih₁ ih₂
  | noSuffix => exact .noSuffix
  | arguments hopen _ hfits hparen _ ih₁ ih₂ =>
    rw [List.map_cons, List.map_append, List.map_cons]
    rw [← Expr.length_moved_all L] at hfits
    exact .arguments hopen ih₁ hfits hparen ih₂
  | property hdot hname _ ih => exact .property hdot hname ih
  | oneArgument _ ih => exact .oneArgument ih
  | moreArguments _ hcomma _ ih₁ ih₂ =>
    rw [List.map_append, List.map_cons]
    exact .moreArguments ih₁ hcomma ih₂
  | noArguments => exact .noArguments
  | someArguments _ ih => exact .someArguments ih
  | literalFalse ht => exact .literalFalse ht
  | literalTrue ht => exact .literalTrue ht
  | literalNil ht => exact .literalNil ht
  | @literal t ht => exact .literal (t := t.moved L) ht
  | this ht => exact .this ht
  | identifier ht => exact .identifier ht
  | @grouping open' paren e w hopen _ hparen ih =>
    rw [List.map_cons, List.map_append]
    exact .grouping hopen ih hparen
  | @super keyword dot method hkeyword hdot hmethod =>
    have hdot' : (dot.moved L).kind = .dot := hdot
    exact .super hkeyword hdot' hmethod

/-- A part that is left out has nothing to move. -/
theorem OptionalExpression.moved {e? : Option SourceExpr} {w : List Token} (h : OptionalExpression .standard e? w) :
    OptionalExpression .standard (e?.map (·.moved L)) (w.map (·.moved L)) := by
  cases h with
  | none => exact .none
  | some he => exact .some (Phrase.Derives.moved he)

theorem VariableDeclaration.moved {s : SourceStmt} {w : List Token} (h : VariableDeclaration .standard s w) :
    VariableDeclaration .standard (s.moved L) (w.map (·.moved L)) := by
  cases h with
  | @plain var name semicolon hvar hname hsemicolon =>
    have hvar' : (var.moved L).kind = .var := hvar
    have hsemicolon' : (semicolon.moved L).kind = .semicolon := hsemicolon
    exact .plain hvar' hname hsemicolon'
  | @initialized var name equals semicolon e w hvar hname hequals he hsemicolon =>
    have hvar' : (var.moved L).kind = .var := hvar
    have hequals' : (equals.moved L).kind = .equal := hequals
    have hsemicolon' : (semicolon.moved L).kind = .semicolon := hsemicolon
    rw [List.map_cons, List.map_cons, List.map_cons, List.map_append]
    exact .initialized hvar' hname hequals' (Phrase.Derives.moved he) hsemicolon'

theorem ExpressionStatement.moved {s : SourceStmt} {w : List Token} (h : ExpressionStatement .standard s w) :
    ExpressionStatement .standard (s.moved L) (w.map (·.moved L)) := by
  cases h with
  | @mk e semicolon w he hsemicolon =>
    have hsemicolon' : (semicolon.moved L).kind = .semicolon := hsemicolon
    rw [List.map_append]
    exact .mk (Phrase.Derives.moved he) hsemicolon'

/-- All three forms of the first clause of a loop. -/
theorem LoopInitializer.moved {s? : Option SourceStmt} {w : List Token} (h : LoopInitializer .standard s? w) :
    LoopInitializer .standard (s?.map (·.moved L)) (w.map (·.moved L)) := by
  cases h with
  | none h => exact .none h
  | var h => exact .var h.moved
  | expression h => exact .expression h.moved

/-- Parameters stay as many as they were, so that the bound on their number is kept. -/
theorem Parameters.moved {ps w : List Token} (h : Parameters ps w) :
    Parameters (ps.map (·.moved L)) (w.map (·.moved L)) := by
  induction h with
  | none => exact .none
  | one hp => exact .one hp
  | more hp hcomma _ ih => exact .more hp hcomma ih

/-- The name of the superclass is all there is. -/
theorem Heritage.moved {r? : Option (Reference Unit)} {w : List Token} (h : Heritage r? w) :
    Heritage (r?.map (·.moved L)) (w.map (·.moved L)) := by
  cases h with
  | none => exact .none
  | some hless hname => exact .some hless hname

variable (L) in
/-- A clause with every token moved. -/
def Clause.moved : Clause → Clause
  | .declaration s dangling => .declaration (s.moved L) dangling
  | .statement s dangling => .statement (s.moved L) dangling
  | .declarations ss => .declarations (Stmt.movedAll L ss)
  | .function f => .function (f.moved L)
  | .functions fs => .functions (FunDecl.movedAll L fs)

/-- A body with its increment behind it. -/
theorem loopBody_moved (body : SourceStmt) (increment : Option SourceExpr) :
    (loopBody body increment).moved L = loopBody (body.moved L) (increment.map (·.moved L)) := by
  cases increment <;> rfl

/-- The statements that a loop stands for. -/
theorem forLoop_moved (initializer : Option SourceStmt) (condition increment : Option SourceExpr)
    (body : SourceStmt) :
    (Stmt.block (initializer.toList ++
        [.while (condition.getD (.literal (.bool true))) (loopBody body increment)])).moved L
      = .block ((initializer.map (·.moved L)).toList ++
        [.while ((condition.map (·.moved L)).getD (.literal (.bool true)))
          (loopBody (body.moved L) (increment.map (·.moved L)))]) := by
  rw [← loopBody_moved, Stmt.moved, Stmt.movedAll_append]
  cases initializer <;> cases condition <;> rfl

/-- The induction over the rules for statements and declarations, with one case for each. What a rule derives from a
shorter stretch of tokens is there as a hypothesis. -/
theorem Clause.Derives.moved {c : Clause} {w : List Token} (h : c.Derives .standard w) :
    (c.moved L).Derives .standard (w.map (·.moved L)) := by
  -- every case maps over the tokens of the rule and hands the parts to the lemma or the hypothesis about them
  induction h with
  | classDeclaration hkeyword hname hheritage hopen _ hclose ih =>
    simp only [List.map_cons, List.map_append]
    exact .classDeclaration hkeyword hname hheritage.moved hopen ih hclose
  | functionDeclaration hkeyword _ ih => exact .functionDeclaration hkeyword ih
  | variableDeclaration h => exact .variableDeclaration h.moved
  | statement _ ih => exact .statement ih
  | expression h => exact .expression h.moved
  | @forLoop _ _ semicolon _ initializer condition increment body _ _ _ _ _ hkeyword hopen hinitializer hcondition
      hsemicolon hincrement hclose _ ih =>
    have hsemicolon' : (semicolon.moved L).kind = .semicolon := hsemicolon
    simp only [List.map_cons, List.map_append]
    rw [Clause.moved, forLoop_moved]
    exact .forLoop hkeyword hopen hinitializer.moved hcondition.moved hsemicolon' hincrement.moved hclose ih
  | ifThen hkeyword hopen hcondition hclose _ ih =>
    simp only [List.map_cons, List.map_append]
    exact .ifThen hkeyword hopen (Phrase.Derives.moved hcondition) hclose ih
  | ifElse hkeyword hopen hcondition hclose _ hnearest helse _ ih₁ ih₂ =>
    simp only [List.map_cons, List.map_append]
    exact .ifElse hkeyword hopen (Phrase.Derives.moved hcondition) hclose ih₁ hnearest helse ih₂
  | printing hkeyword he hsemicolon =>
    simp only [List.map_cons, List.map_append]
    exact .printing hkeyword (Phrase.Derives.moved he) hsemicolon
  | returning hkeyword hvalue hsemicolon =>
    simp only [List.map_cons, List.map_append]
    exact .returning hkeyword hvalue.moved hsemicolon
  | whileLoop hkeyword hopen hcondition hclose _ ih =>
    simp only [List.map_cons, List.map_append]
    exact .whileLoop hkeyword hopen (Phrase.Derives.moved hcondition) hclose ih
  | block hopen _ hclose ih =>
    simp only [List.map_cons, List.map_append]
    exact .block hopen ih hclose
  | noDeclaration => exact .noDeclaration
  | moreDeclarations _ _ ih₁ ih₂ =>
    rw [List.map_append]
    exact .moreDeclarations ih₁ ih₂
  | function hname hopen hparams hfits hclose hopen' _ hclose' ih =>
    simp only [List.map_cons, List.map_append]
    exact .function hname hopen hparams.moved (by rwa [List.length_map]) hclose hopen' ih hclose'
  | noFunction => exact .noFunction
  | moreFunctions _ _ ih₁ ih₂ =>
    rw [List.map_append]
    exact .moreFunctions ih₁ ih₂

/-- Moved tokens are derived from the moved program. -/
theorem Program.moved {ss : List SourceStmt} {w : List Token} (h : Program .standard ss w) :
    Program .standard (Stmt.movedAll L ss) (w.map (·.moved L)) :=
  Clause.Derives.moved h

theorem Program.append {d : Dialect} {ss ss' : List SourceStmt} {w w' : List Token} (h : Program d ss w)
    (h' : Program d ss' w') : Program d (ss ++ ss') (w ++ w') := by
  induction ss generalizing w with
  | nil =>
    cases h with
    | noDeclaration => exact h'
  | cons s ss ih =>
    cases h with
    | moreDeclarations hs hss =>
      rw [List.cons_append, List.append_assoc]
      exact .moreDeclarations hs (ih hss)

end LoxLang
