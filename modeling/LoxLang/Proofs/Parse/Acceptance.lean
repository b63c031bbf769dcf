import LoxLang.Proofs.Parse.ProgramComplete

/-!
# The language of the parser

* **`parse_accepts_grammar`** — the parser complains about nothing exactly if the tokens are derived in the
  written grammar; and then its statements are the only ones derived with each `else` at the nearest open `if`.

The written grammar has more than one derivation where an `else` may belong to several `if`s. From any of them
one is made in which it belongs to the nearest (`attach_else`, `Clause.Derives.nearest`). This is so in every dialect.
-/

namespace LoxLang

/-! ## Expressions in dialects that differ by `else` only

Expressions contain no `else`. So what is derived in one dialect is derived in the other by the same rules. -/

/-- The dialect in which, besides, an `else` belongs to the nearest open `if`. -/
def Dialect.nearest (d : Dialect) : Dialect :=
  { d with nearestElse := true }

variable {d : Dialect}

/-- Rule by rule; the limits on arguments are the same in both dialects. -/
theorem Phrase.Derives.nearest {p : Phrase} {w : List Token} (h : p.Derives d w) :
    p.Derives d.nearest w := by
  -- none of these rules mentions an `else`, so that each holds in the other dialect as it stands
  induction h with
  | assign hname hequals _ ih => exact .assign hname hequals ih
  | set _ hdot hname hequals _ ih₁ ih₂ => exact .set ih₁ hdot hname hequals ih₂
  | misplaced hany hvariable hget _ hequals _ ih₁ ih₂ => exact .misplaced hany hvariable hget ih₁ hequals ih₂
  | disjunction _ ih => exact .disjunction ih
  | joined _ _ ih₁ ih₂ => exact .joined ih₁ ih₂
  | noOperation => exact .noOperation
  | operation hoperator _ _ ih₁ ih₂ => exact .operation hoperator ih₁ ih₂
  | unary hoperator _ ih => exact .unary hoperator ih
  | noUnary _ ih => exact .noUnary ih
  | call _ _ ih₁ ih₂ => exact .call ih₁ ih₂
  | noSuffix => exact .noSuffix
  | arguments hopen _ hfits hparen _ ih₁ ih₂ => exact .arguments hopen ih₁ hfits hparen ih₂
  | property hdot hname _ ih => exact .property hdot hname ih
  | oneArgument _ ih => exact .oneArgument ih
  | moreArguments _ hcomma _ ih₁ ih₂ => exact .moreArguments ih₁ hcomma ih₂
  | noArguments => exact .noArguments
  | someArguments _ ih => exact .someArguments ih
  | literalFalse ht => exact .literalFalse ht
  | literalTrue ht => exact .literalTrue ht
  | literalNil ht => exact .literalNil ht
  | literal ht => exact .literal ht
  | this ht => exact .this ht
  | identifier ht => exact .identifier ht
  | grouping hopen _ hparen ih => exact .grouping hopen ih hparen
  | super hkeyword hdot hmethod => exact .super hkeyword hdot hmethod

theorem OptionalExpression.nearest {e? : Option SourceExpr} {w : List Token}
    (h : OptionalExpression d e? w) : OptionalExpression d.nearest e? w := by
  cases h with
  | none => exact .none
  | some he => exact .some he.nearest

theorem VariableDeclaration.nearest {s : SourceStmt} {w : List Token}
    (h : VariableDeclaration d s w) : VariableDeclaration d.nearest s w := by
  cases h with
  | plain hvar hname hsemicolon => exact .plain hvar hname hsemicolon
  | initialized hvar hname hequals he hsemicolon =>
    exact .initialized hvar hname hequals he.nearest hsemicolon

theorem ExpressionStatement.nearest {s : SourceStmt} {w : List Token}
    (h : ExpressionStatement d s w) : ExpressionStatement d.nearest s w := by
  cases h with
  | mk he hsemicolon => exact .mk he.nearest hsemicolon

/-- All three forms of the first clause of a loop. -/
theorem LoopInitializer.nearest {s? : Option SourceStmt} {w : List Token}
    (h : LoopInitializer d s? w) : LoopInitializer d.nearest s? w := by
  cases h with
  | none hsemicolon => exact .none hsemicolon
  | var h => exact .var h.nearest
  | expression h => exact .expression h.nearest

/-! ## The nearest `if`

Where an `else` was given to an outer `if` while an inner one was open, it is moved to the inner one. The tokens stay
the same and so does everything around. -/

/-- An `else` behind a dangling statement is taken by an `if` in it. The induction goes down along the last
statements to the `if` that is still open. -/
theorem attach_else {c : Clause} {w₁ w₂ : List Token} {else' : Token} {branch : SourceStmt} {o₂ : Bool}
    (h : c.Derives d.nearest w₁) (helse : else'.kind = .else)
    (hbranch : (Clause.statement branch o₂).Derives d.nearest w₂) :
    ∀ s, c = .statement s true →
      ∃ s' o, (Clause.statement s' o).Derives d.nearest (w₁ ++ else' :: w₂) := by
  -- the cases are the statements that may be left open: an `if` without `else`, and those that end with one
  induction h with
  | @forLoop keyword open' semicolon close initializer condition increment body o w₁ w₂ w₃ w₄ hkeyword hopen
      hinitializer hcondition hsemicolon hincrement hclose _ ih =>
    intro s hs
    cases hs
    obtain ⟨body', o, hbody⟩ := ih _ rfl
    have h := Clause.Derives.forLoop hkeyword hopen hinitializer hcondition hsemicolon hincrement hclose hbody
    exact ⟨_, o, by simpa using h⟩
  | @ifThen keyword open' close condition thenBranch o w₁ w₂ hkeyword hopen hcondition hclose hthen ih =>
    intro s hs
    cases o with
    | false =>
      have h := Clause.Derives.ifElse hkeyword hopen hcondition hclose hthen (fun _ => rfl) helse hbranch
      exact ⟨_, o₂, by simpa using h⟩
    | true =>
      obtain ⟨thenBranch', o, hthen'⟩ := ih _ rfl
      have h := Clause.Derives.ifThen hkeyword hopen hcondition hclose hthen'
      exact ⟨_, true, by simpa using h⟩
  | @ifElse keyword open' close else'' condition thenBranch elseBranch o₁ o₂ w₁ w₂ w₃ hkeyword hopen hcondition
      hclose hthen hnearest helse' _ _ ih =>
    intro s hs
    cases hs
    obtain ⟨elseBranch', o, helseBranch⟩ := ih _ rfl
    have h := Clause.Derives.ifElse hkeyword hopen hcondition hclose hthen hnearest helse' helseBranch
    exact ⟨_, o, by simpa using h⟩
  | @whileLoop keyword open' close condition body o w₁ w₂ hkeyword hopen hcondition hclose _ ih =>
    intro s hs
    cases hs
    obtain ⟨body', o, hbody⟩ := ih _ rfl
    have h := Clause.Derives.whileLoop hkeyword hopen hcondition hclose hbody
    exact ⟨_, o, by simpa using h⟩
  | _ => intro s hs; cases hs

/-- What the tokens of a clause are in that dialect: a clause of the same sort. -/
def Clause.Nearest (d : Dialect) : Clause → List Token → Prop
  | .declaration _ _, w => ∃ s o, (Clause.declaration s o).Derives d.nearest w
  | .statement _ _, w => ∃ s o, (Clause.statement s o).Derives d.nearest w
  | .declarations _, w => ∃ ss, (Clause.declarations ss).Derives d.nearest w
  | .function _, w => ∃ f, (Clause.function f).Derives d.nearest w
  | .functions _, w => ∃ fs, (Clause.functions fs).Derives d.nearest w

/-- From any derivation one is made with each `else` at the nearest `if`. The tree may change by this, and so it is said
that some tree is derived. -/
theorem Clause.Derives.nearest {c : Clause} {w : List Token} (h : c.Derives d w) : c.Nearest d w := by
  induction h with
  | classDeclaration hkeyword hname hheritage hopen _ hclose ih =>
    obtain ⟨methods, hmethods⟩ := ih
    exact ⟨_, false, .classDeclaration hkeyword hname hheritage hopen hmethods hclose⟩
  | functionDeclaration hkeyword _ ih =>
    obtain ⟨f, hf⟩ := ih
    exact ⟨_, false, .functionDeclaration hkeyword hf⟩
  | variableDeclaration h => exact ⟨_, false, .variableDeclaration h.nearest⟩
  | statement _ ih =>
    obtain ⟨s, o, hs⟩ := ih
    exact ⟨s, o, .statement hs⟩
  | expression h => exact ⟨_, false, .expression h.nearest⟩
  | forLoop hkeyword hopen hinitializer hcondition hsemicolon hincrement hclose _ ih =>
    obtain ⟨body, o, hbody⟩ := ih
    exact ⟨_, o, .forLoop hkeyword hopen hinitializer.nearest hcondition.nearest hsemicolon
      hincrement.nearest hclose hbody⟩
  | ifThen hkeyword hopen hcondition hclose _ ih =>
    obtain ⟨thenBranch, o, hthen⟩ := ih
    exact ⟨_, true, .ifThen hkeyword hopen (Phrase.Derives.nearest hcondition) hclose hthen⟩
  | ifElse hkeyword hopen hcondition hclose _ _ helse _ ih₁ ih₂ =>
    obtain ⟨thenBranch, o₁, hthen⟩ := ih₁
    obtain ⟨elseBranch, o₂, helseBranch⟩ := ih₂
    have hcondition := Phrase.Derives.nearest hcondition
    cases o₁ with
    | false =>
      exact ⟨_, o₂, .ifElse hkeyword hopen hcondition hclose hthen (fun _ => rfl) helse helseBranch⟩
    | true =>
      -- the `else` goes to an `if` in the first branch
      obtain ⟨thenBranch', o, hthen'⟩ := attach_else hthen helse helseBranch _ rfl
      exact ⟨_, true, .ifThen hkeyword hopen hcondition hclose hthen'⟩
  | printing hkeyword he hsemicolon => exact ⟨_, false, .printing hkeyword (Phrase.Derives.nearest he) hsemicolon⟩
  | returning hkeyword hvalue hsemicolon => exact ⟨_, false, .returning hkeyword hvalue.nearest hsemicolon⟩
  | whileLoop hkeyword hopen hcondition hclose _ ih =>
    obtain ⟨body, o, hbody⟩ := ih
    exact ⟨_, o, .whileLoop hkeyword hopen (Phrase.Derives.nearest hcondition) hclose hbody⟩
  | block hopen _ hclose ih =>
    obtain ⟨ss, hss⟩ := ih
    exact ⟨_, false, .block hopen hss hclose⟩
  | noDeclaration => exact ⟨_, .noDeclaration⟩
  | moreDeclarations _ _ ih₁ ih₂ =>
    obtain ⟨s, o, hs⟩ := ih₁
    obtain ⟨ss, hss⟩ := ih₂
    exact ⟨_, .moreDeclarations hs hss⟩
  | function hname hopen hparams hfits hclose hopen' _ hclose' ih =>
    obtain ⟨body, hbody⟩ := ih
    exact ⟨_, .function hname hopen hparams hfits hclose hopen' hbody hclose'⟩
  | noFunction => exact ⟨_, .noFunction⟩
  | moreFunctions _ _ ih₁ ih₂ =>
    obtain ⟨f, hf⟩ := ih₁
    obtain ⟨fs, hfs⟩ := ih₂
    exact ⟨_, .moreFunctions hf hfs⟩

/-! ## Acceptance

One direction reads the derivation off the run of the parser, the other one gives each `else` to the nearest `if` first
and then runs the parser on it. -/

/-- The parser complains about nothing but what the dialect puts up with. -/
theorem parse_excuses {w : List Token} {ss : List SourceStmt} {eof : Token} (heof : eof.kind = .eof)
    (h : Program d ss w) : ∃ ss' ds, parse (w ++ [eof]) = some ⟨ss', ds⟩ ∧ d.Excuses ds := by
  obtain ⟨ss', hnearest⟩ := h.nearest
  obtain ⟨ds, hds, hparse⟩ := parse_gives_program rfl heof hnearest
  exact ⟨ss', ds, hparse, hds⟩

/-- On tokens before an end token the parser comes to a program. It complains about nothing exactly if the tokens
are derived in the grammar, and then its statements are the tree of the one derivation in which each `else`
belongs to the nearest open `if`. -/
theorem parse_accepts_grammar {w : List Token} {eof : Token} (hw : ∀ t ∈ w, t.kind ≠ .eof)
    (heof : eof.kind = .eof) :
    ∃ ss ds, parse (w ++ [eof]) = some ⟨ss, ds⟩ ∧
      (ds = [] ↔ ∃ ss', Program .written ss' w) ∧
      (ds = [] → ∀ ss', Program .standard ss' w ↔ ss' = ss) := by
  obtain ⟨ss, ds, hparse, -, hderived⟩ := parse_answers hw heof
  refine ⟨ss, ds, hparse, ⟨?_, ?_⟩, ?_⟩
  · rintro rfl
    exact ⟨ss, hderived .written Dialect.excuses_nil⟩
  · -- with each `else` at the nearest `if`, the program is derived as the parser reads it
    rintro ⟨ss', h⟩
    obtain ⟨ss'', hstandard⟩ := h.nearest
    have hread := parse_of_program heof hstandard
    rw [hparse] at hread
    cases hread
    rfl
  · rintro rfl ss'
    constructor
    · intro h
      have hread := parse_of_program heof h
      rw [hparse] at hread
      cases hread
      rfl
    · rintro rfl
      exact hderived .standard Dialect.excuses_nil

/-- A dangling `else`: the tokens of `if (nil) if (nil) nil; else nil;`. -/
theorem parse_accepts_dangling_else :
    let token (kind : Kind) : Token := ⟨kind, "", .nil, 1⟩
    let w := [Kind.if, .leftParen, .nil, .rightParen, .if, .leftParen, .nil, .rightParen, .nil, .semicolon, .else,
      .nil, .semicolon].map token
    (∀ t ∈ w, t.kind ≠ .eof) ∧ (token .eof).kind = .eof ∧
      ∃ ss ds, parse (w ++ [token .eof]) = some ⟨ss, ds⟩ ∧
        (ds = [] ↔ ∃ ss', Program .written ss' w) ∧
        (ds = [] → ∀ ss', Program .standard ss' w ↔ ss' = ss) := by
  intro token w
  have hw : ∀ t ∈ w, t.kind ≠ .eof := by simp [w, token]
  exact ⟨hw, rfl, parse_accepts_grammar hw rfl⟩

end LoxLang
