import LoxLang.Proofs.Parse.ExpressionComplete
import LoxLang.Proofs.Parse.ProgramSound

/-!
# What is derived as a program is read

* **`Parser.clauseReads_of_derives`** — what a clause derives in a dialect is read with the tree of the derivation and
  with complaints that the dialect excuses, if each `else` of the derivation belongs to the nearest open `if` and none
  comes behind a dangling statement.
* **`parse_gives_program`** — the same for whole programs.

The induction is on the derivation. The statements of a block or a program are stated for every parser of
declarations that reads single declarations, because the two places bound the nesting differently.

The bound on the nesting goes down by one for each production, and the number of tokens by at least one. So a bound
that is taken from the number of tokens is large enough for every derivation of them.
-/

namespace LoxLang

/-! ## First tokens

The parser decides by the token in front, so the grammar has to be asked which tokens a clause may begin with. -/

/-- The kinds of tokens that a statement begins with. -/
def statementHeads : List Kind :=
  [.for, .if, .print, .return, .while, .leftBrace] ++ expressionStarts

/-- The kinds of tokens that a declaration begins with. -/
def declarationHeads : List Kind :=
  [.class, .fun, .var] ++ statementHeads

/-- A declaration of a variable begins with its keyword. -/
theorem VariableDeclaration.starts {d : Dialect} {s : SourceStmt} {w : List Token}
    (h : VariableDeclaration d s w) : ∃ var w', w = var :: w' ∧ var.kind = .var := by
  cases h with
  | plain hvar => exact ⟨_, _, rfl, hvar⟩
  | initialized hvar => exact ⟨_, _, rfl, hvar⟩

/-- A statement that is an expression begins as expressions do. -/
theorem ExpressionStatement.starts {d : Dialect} {s : SourceStmt} {w : List Token}
    (h : ExpressionStatement d s w) : ∃ t w', w = t :: w' ∧ t.kind ∈ expressionStarts := by
  cases h with
  | mk he => exact starts_append he.starts _

/-- What the tokens of a clause begin with. -/
def Clause.Starts : Clause → List Token → Prop
  | .declaration _ _, w => ∃ t w', w = t :: w' ∧ t.kind ∈ declarationHeads
  | .statement _ _, w => ∃ t w', w = t :: w' ∧ t.kind ∈ statementHeads
  | .function _, w => ∃ t w', w = t :: w' ∧ t.kind = .identifier
  | .declarations _, w => w = [] ∨ ∃ t w', w = t :: w' ∧ t.kind ∈ declarationHeads
  | .functions _, w => w = [] ∨ ∃ t w', w = t :: w' ∧ t.kind = .identifier

/-- Each clause begins with one of its heads. Lists of clauses may be empty, and then there is nothing to say. -/
theorem Clause.Derives.starts {d : Dialect} {c : Clause} {w : List Token} (h : c.Derives d w) :
    c.Starts w := by
  -- most clauses begin with a keyword; the others begin as their first part does
  induction h with
  | classDeclaration hkeyword | functionDeclaration hkeyword =>
    exact ⟨_, _, rfl, by rw [hkeyword]; decide⟩
  | variableDeclaration h =>
    obtain ⟨var, w', rfl, hvar⟩ := h.starts
    exact ⟨var, w', rfl, by rw [hvar]; decide⟩
  | statement _ ih =>
    obtain ⟨t, w', rfl, ht⟩ := ih
    exact ⟨t, w', rfl, List.mem_append_right _ ht⟩
  | expression h =>
    obtain ⟨t, w', rfl, ht⟩ := h.starts
    exact ⟨t, w', rfl, List.mem_append_right _ ht⟩
  | forLoop hkeyword | ifThen hkeyword | ifElse hkeyword | printing hkeyword | returning hkeyword
  | whileLoop hkeyword | block hkeyword =>
    exact ⟨_, _, rfl, by rw [hkeyword]; decide⟩
  | noDeclaration | noFunction => exact .inl rfl
  | moreDeclarations _ _ ih => exact .inr (starts_append ih _)
  | function hname => exact ⟨_, _, rfl, hname⟩
  | moreFunctions _ _ ih =>
    obtain ⟨t, w', rfl, ht⟩ := ih
    exact .inr ⟨t, _, rfl, ht⟩

namespace Parser

variable {d : Dialect} {w rest : List Token}

/-! ## Simple statements

The keyword has been taken; what is left is read token by token, and the expressions by `expression_reads`. -/

/-- An expression is read up to a token of a kind that continues no expression. -/
theorem expression_reads_to {e : SourceExpr} {t : Token} {k : Kind} (h : Expression d e w) (ht : t.kind = k)
    (hk : k ∉ continuing) (ts : List Token) : (expression (w ++ t :: ts)).Gives d e (t :: ts) :=
  expression_reads h (stops_cons (l := .assignment) ht hk ts)

/-- A token that is expected behind something is there. -/
theorem expect_gives {α : Type} {f : Token → Parser α} {a : α} {t : Token} {k : Kind} (ht : t.kind = k)
    (expected : String) {ts : List Token} (h : (f t ts).Gives d a rest) :
    ((expect k expected >>= f) (t :: ts)).Gives d a rest := by
  rw [bind_ok (expect_pos ht expected ts)]
  exact h

/-- What is derived as a declaration is read behind its keyword. -/
theorem varDeclaration_reads {s : SourceStmt} {var : Token} (h : VariableDeclaration d s (var :: w))
    (rest : List Token) : (varDeclaration (w ++ rest)).Gives d s rest := by
  unfold varDeclaration
  cases h with
  | @plain _ name semicolon _ hname hsemicolon =>
    have hequal : semicolon.kind ≠ .equal := by rw [hsemicolon]; decide
    rw [List.cons_append, bind_ok (expect_pos hname _ _), List.singleton_append]
    rw [bind_ok (accept_neg hequal rest)]
    exact expect_gives hsemicolon _ (gives_pure _ rest)
  | @initialized _ name equals semicolon e w' _ hname hequals he hsemicolon =>
    have hvalue := expression_reads_to he hsemicolon (by decide) rest
    rw [List.cons_append, bind_ok (expect_pos hname _ _), List.cons_append]
    rw [bind_ok (accept_pos hequals _), if_pos rfl, List.append_assoc, List.singleton_append]
    exact gives_bind hvalue (expect_gives hsemicolon _ (gives_pure _ rest))

/-- The semicolon does not continue the expression before it. -/
theorem expressionStatement_reads {s : SourceStmt} (h : ExpressionStatement d s w) (rest : List Token) :
    (expressionStatement (w ++ rest)).Gives d s rest := by
  cases h with
  | mk he hsemicolon =>
    rw [List.append_assoc, List.singleton_append]
    exact gives_bind (expression_reads_to he hsemicolon (by decide) rest)
      (expect_gives hsemicolon _ (gives_pure _ rest))

/-- An expression does not begin with the token that says that there is none. -/
theorem expressionUnless_reads {e? : Option SourceExpr} {t : Token} {k : Kind}
    (h : OptionalExpression d e? w) (ht : t.kind = k) (hk : k ∉ continuing) (hstart : k ∉ expressionStarts)
    (ts : List Token) : (expressionUnless k (w ++ t :: ts)).Gives d e? (t :: ts) := by
  unfold expressionUnless
  cases h with
  | none =>
    rw [List.nil_append, bind_ok (check_cons _ _ _), beq_iff_eq.mpr ht]
    exact gives_pure _ _
  | some he =>
    have hvalue := expression_reads_to he ht hk ts
    obtain ⟨u, w', rfl, hu⟩ := he.starts
    have hne : u.kind ≠ k := fun h => hstart (h ▸ hu)
    rw [List.cons_append, bind_ok (check_cons _ _ _), beq_eq_false_iff_ne.mpr hne]
    exact gives_bind hvalue (gives_pure _ _)

/-- The three forms begin with different tokens, so that the parser takes the right one. -/
theorem loopInitializer_reads {s? : Option SourceStmt} (h : LoopInitializer d s? w) (rest : List Token) :
    (loopInitializer (w ++ rest)).Gives d s? rest := by
  unfold loopInitializer
  cases h with
  | none hsemicolon =>
    rw [List.singleton_append, bind_ok (accept_pos hsemicolon rest)]
    exact gives_pure _ rest
  | var h =>
    obtain ⟨var, w', rfl, hvar⟩ := h.starts
    have hne : var.kind ≠ .semicolon := by simp [hvar]
    rw [List.cons_append, bind_ok (accept_neg hne _), if_neg (by decide), bind_ok (accept_pos hvar _)]
    exact gives_bind (varDeclaration_reads h rest) (gives_pure _ rest)
  | expression h =>
    have hread := expressionStatement_reads h rest
    obtain ⟨t, w', rfl, ht⟩ := h.starts
    have hsemicolon : t.kind ≠ .semicolon := by intro h; rw [h] at ht; revert ht; decide
    have hvar : t.kind ≠ .var := by intro h; rw [h] at ht; revert ht; decide
    rw [List.cons_append, bind_ok (accept_neg hsemicolon _), if_neg (by decide), bind_ok (accept_neg hvar _)]
    exact gives_bind hread (gives_pure _ rest)

/-! ## Functions, blocks and classes

Loops are run round by round: `whileM_gives` is a round that reads an item, and `whileM_none` the end of the loop. -/

/-- Parameters and commas up to the parenthesis, with the bound counted down and the items counted up. -/
theorem params_read {ps : List Token} (h : Parameters ps w) :
    ∀ {paren : Token} (rest : List Token) (k count : Nat), paren.kind = .rightParen → w ≠ [] →
      (w ++ paren :: rest).length < k → d.Fits (count + ps.length) →
      (commaSeparated (.tooManyParameters (toString maxArguments)) (expect .identifier "parameter name") k
        count (w ++ paren :: rest)).Gives d ps (paren :: rest) := by
  -- the bound and the count move in opposite directions, so that the limit is on all parameters together
  induction h with
  | none =>
    intro paren rest k count _ hne
    exact absurd rfl hne
  | @one p hp =>
    intro paren rest k count hparen _ hk hcount
    obtain ⟨k, rfl⟩ : ∃ k', k = k' + 1 := ⟨k - 1, by omega⟩
    have hitem := Reply.Gives.silent (d := d) (expect_pos hp "parameter name" (paren :: rest))
    exact commaSeparated_one rfl hcount (by simp) hitem ⟨paren, rest, rfl, by rw [hparen]; decide⟩
  | @more p q comma ps w hp hcomma hmore ih =>
    intro paren rest k count hparen _ hk hcount
    obtain ⟨k, rfl⟩ : ∃ k', k = k' + 1 := ⟨k - 1, by omega⟩
    simp only [List.length_cons, List.cons_append] at hk hcount
    have hne : w ≠ [] := by cases hmore <;> simp
    have hitem := Reply.Gives.silent (d := d) (expect_pos hp "parameter name" (comma :: (w ++ paren :: rest)))
    have htail := ih rest k (count + 1) hparen hne (by omega)
      (hcount.mono (by simp only [List.length_cons]; omega))
    exact commaSeparated_more rfl (hcount.mono (by omega)) (by simp) hitem hcomma htail

/-- The list of parameters may be empty. -/
theorem paramList_reads {ps : List Token} {paren : Token} (h : Parameters ps w)
    (hparen : paren.kind = .rightParen) (hcount : d.Fits ps.length) (rest : List Token) :
    (untilParen (.tooManyParameters (toString maxArguments)) (expect .identifier "parameter name")
      (w ++ paren :: rest)).Gives d ps (paren :: rest) := by
  have hread := params_read (d := d) h rest ((w ++ paren :: rest).length + 1) 0 hparen
  have hcount : d.Fits (0 + ps.length) := hcount.mono (by omega)
  cases h with
  | none => exact untilParen_none hparen rest
  | one hp => exact untilParen_some (by rw [hp]; decide) (hread (by simp) (Nat.lt_succ_self _) hcount)
  | more hp => exact untilParen_some (by rw [hp]; decide) (hread (by simp) (Nat.lt_succ_self _) hcount)

/-- One more round of a loop. Its complaints come before those of the rounds that follow. -/
theorem whileM_more {α : Type} {more : Parser Bool} {item : Parser α} {a : α} {as : List α} {ts rest' : List Token}
    {ds ds' : List Diagnostic} {k : Nat} (hmore : more ts = ⟨.ok true, ts, []⟩) (hitem : item ts = ⟨.ok a, rest', ds⟩)
    (h : whileM more item k rest' = ⟨.ok as, rest, ds'⟩) :
    whileM more item (k + 1) ts = ⟨.ok (a :: as), rest, ds ++ ds'⟩ := by
  have htail := bind_ok' (f := fun as => pure (a :: as)) h (pure_apply (a :: as) rest)
  rw [List.append_nil] at htail
  rw [whileM, bind_ok hmore, if_pos rfl]
  exact bind_ok' hitem htail

/-- A loop whose test fails has no items. -/
theorem whileM_none {α : Type} {more : Parser Bool} {item : Parser α} {k : Nat}
    (hmore : more rest = ⟨.ok false, rest, []⟩) :
    whileM more item (k + 1) rest = ⟨.ok [], rest, []⟩ := by
  rw [whileM, bind_ok hmore]
  rfl

/-- One round: the test holds, an item is read, and the loop reads the rest. -/
theorem whileM_gives {α : Type} {more : Parser Bool} {item : Parser α} {a : α} {as : List α} {ts rest' : List Token}
    {k : Nat} (hmore : more ts = ⟨.ok true, ts, []⟩) (hitem : (item ts).Gives d a rest')
    (h : (whileM more item k rest').Gives d as rest) : (whileM more item (k + 1) ts).Gives d (a :: as) rest := by
  obtain ⟨ds, hds, hitem⟩ := hitem
  obtain ⟨ds', hds', h⟩ := h
  exact ⟨ds ++ ds', Dialect.excuses_append.mpr ⟨hds, hds'⟩, whileM_more hmore hitem h⟩

/-- Any token but the brace and the end token keeps the loop of a block going. -/
theorem inside_cons {t : Token} (ht : t.kind ≠ .rightBrace) (heof : t.kind ≠ .eof) (ts : List Token) :
    block.inside (t :: ts) = ⟨.ok true, t :: ts, []⟩ := by
  have hgo : (t.kind != .rightBrace && t.kind != .eof) = true := by simp [ht, heof]
  exact (bind_ok (peek_cons t ts)).trans (by rw [hgo]; rfl)

/-- The brace ends it. -/
theorem inside_brace {t : Token} (ht : t.kind = .rightBrace) (ts : List Token) :
    block.inside (t :: ts) = ⟨.ok false, t :: ts, []⟩ := by
  have hgo : (t.kind != .rightBrace && t.kind != .eof) = false := by simp [ht]
  exact (bind_ok (peek_cons t ts)).trans (by rw [hgo]; rfl)

/-- The declarations of a block are read up to its brace, which is then taken. -/
theorem block_reads {declaration : Parser (Option SourceStmt)} {ss : List SourceStmt} {close : Token}
    (hclose : close.kind = .rightBrace) {ts : List Token}
    (h : (whileM block.inside declaration (ts.length + 1) ts).Gives d (ss.map some) (close :: rest)) :
    (block declaration ts).Gives d ss rest := by
  have hread := gives_pure (d := d) ((ss.map some).filterMap id) rest
  have hss : (ss.map some).filterMap id = ss := by rw [List.filterMap_map]; simp
  rw [hss] at hread
  refine gives_bind (p := sized (whileM block.inside declaration)) h (expect_gives hclose _ ?_)
  rw [hss]
  exact hread

/-! ## Statements with a body

One lemma for each production. That the body is read is assumed, so that none of them knows about nesting. -/

section Bodies

variable {statement : Parser SourceStmt} {ts : List Token}

/-- A keyword in front chooses its production. -/
theorem statementWith_keyword {nested : Nested} {t : Token}
    (ht : t.kind ∈ [Kind.for, .if, .print, .return, .while, .leftBrace]) (ts : List Token) :
    statementWith nested (t :: ts) =
      (match t.kind with
        | .for => forStatement nested.statement
        | .if => ifStatement nested.statement
        | .print => printStatement
        | .return => returnStatement t
        | .while => whileStatement nested.statement
        | _ => .block <$> block nested.declaration : Parser SourceStmt) ts :=
  bind_ok (accept?_pos ht ts)

/-- Where an expression begins, no keyword is in front. -/
theorem statementWith_expression {nested : Nested} {t : Token} (ht : t.kind ∈ expressionStarts)
    (ts : List Token) : statementWith nested (t :: ts) = expressionStatement (t :: ts) := by
  have hkeyword : t.kind ∉ [Kind.for, .if, .print, .return, .while, .leftBrace] := by
    revert ht
    cases t.kind <;> decide
  exact bind_ok (accept?_neg hkeyword ts)

/-- Where a statement begins, no keyword of a declaration is in front. -/
theorem declarationWith_statement {nested : Nested} {t : Token} (ht : t.kind ∈ statementHeads)
    (ts : List Token) : declarationWith nested (t :: ts) = statementWith nested (t :: ts) := by
  have hne : ∀ k, k ∉ statementHeads → t.kind ≠ k := fun k hk h => hk (h ▸ ht)
  unfold declarationWith
  rw [bind_ok (accept_neg (hne .class (by decide)) ts), if_neg (by decide)]
  rw [bind_ok (accept_neg (hne .fun (by decide)) ts), if_neg (by decide)]
  rw [bind_ok (accept_neg (hne .var (by decide)) ts), if_neg (by decide)]

/-- The clauses of a loop are read one after the other, each up to the token that ends it. -/
theorem forClauses_reads {open' semicolon close : Token} {initializer : Option SourceStmt}
    {condition increment : Option SourceExpr} {body : SourceStmt} {w₁ w₂ w₃ w₄ : List Token}
    (hopen : open'.kind = .leftParen) (hinitializer : LoopInitializer d initializer w₁)
    (hcondition : OptionalExpression d condition w₂) (hsemicolon : semicolon.kind = .semicolon)
    (hincrement : OptionalExpression d increment w₃) (hclose : close.kind = .rightParen)
    (hbody : (statement (w₄ ++ rest)).Gives d body rest) :
    (forClauses statement (open' :: (w₁ ++ (w₂ ++ semicolon :: (w₃ ++ close :: w₄))) ++ rest)).Gives d
      ⟨initializer, condition, increment, body⟩ rest := by
  have hlist : open' :: (w₁ ++ (w₂ ++ semicolon :: (w₃ ++ close :: w₄))) ++ rest
      = open' :: (w₁ ++ (w₂ ++ semicolon :: (w₃ ++ close :: (w₄ ++ rest)))) := by simp
  have hcondition := expressionUnless_reads hcondition hsemicolon (by decide) (by decide) (w₃ ++ close :: (w₄ ++ rest))
  have hincrement := expressionUnless_reads hincrement hclose (by decide) (by decide) (w₄ ++ rest)
  rw [hlist]
  refine expect_gives hopen _ (gives_bind (loopInitializer_reads hinitializer _) (gives_bind hcondition ?_))
  exact expect_gives hsemicolon _ (gives_bind hincrement (expect_gives hclose _ (gives_bind hbody (gives_pure _ _))))

/-- The statement of clauses that are read is their block. -/
theorem forStatement_reads {loop : ForLoop Unit} (h : (forClauses statement ts).Gives d loop rest) :
    (forStatement statement ts).Gives d loop.block rest := by
  rw [forStatement_eq]
  exact gives_bind h (gives_pure _ _)

/-- The condition between parentheses, then the body. -/
theorem whileStatement_reads {open' close : Token} {condition : SourceExpr} {body : SourceStmt}
    {ts' : List Token} (hopen : open'.kind = .leftParen)
    (hcondition : (expression ts).Gives d condition (close :: ts')) (hclose : close.kind = .rightParen)
    (hbody : (statement ts').Gives d body rest) :
    (whileStatement statement (open' :: ts)).Gives d (.while condition body) rest :=
  expect_gives hopen _ (gives_bind hcondition (expect_gives hclose _ (gives_bind hbody (gives_pure _ _))))

/-- An `if` without `else`: the token behind the branch is another one. -/
theorem ifStatement_reads {open' close : Token} {condition : SourceExpr} {thenBranch : SourceStmt}
    {ts' : List Token} (hopen : open'.kind = .leftParen)
    (hcondition : (expression ts).Gives d condition (close :: ts')) (hclose : close.kind = .rightParen)
    (hthen : (statement ts').Gives d thenBranch rest)
    (hrest : ∃ t rest', rest = t :: rest' ∧ t.kind ≠ .else) :
    (ifStatement statement (open' :: ts)).Gives d (.if condition thenBranch none) rest := by
  obtain ⟨t, rest', rfl, ht⟩ := hrest
  refine expect_gives hopen _ (gives_bind hcondition (expect_gives hclose _ (gives_bind hthen ?_)))
  rw [bind_ok (accept_neg ht rest')]
  exact gives_pure _ _

/-- With an `else` behind the first branch the second one is read. -/
theorem ifElseStatement_reads {open' close else' : Token} {condition : SourceExpr}
    {thenBranch elseBranch : SourceStmt} {ts' ts'' : List Token} (hopen : open'.kind = .leftParen)
    (hcondition : (expression ts).Gives d condition (close :: ts')) (hclose : close.kind = .rightParen)
    (hthen : (statement ts').Gives d thenBranch (else' :: ts'')) (helse : else'.kind = .else)
    (helseBranch : (statement ts'').Gives d elseBranch rest) :
    (ifStatement statement (open' :: ts)).Gives d (.if condition thenBranch (some elseBranch)) rest := by
  refine expect_gives hopen _ (gives_bind hcondition (expect_gives hclose _ (gives_bind hthen ?_)))
  rw [bind_ok (accept_pos helse _)]
  exact gives_bind helseBranch (gives_pure _ _)

end Bodies

/-- The name, the parameters and the body with their brackets. -/
theorem function_reads {declaration : Parser (Option SourceStmt)} {what : String}
    {name open' close open'' close' : Token} {params : List Token} {body : List SourceStmt}
    {w₁ w₂ : List Token}
    (hname : name.kind = .identifier) (hopen : open'.kind = .leftParen) (hparams : Parameters params w₁)
    (hcount : d.Fits params.length) (hclose : close.kind = .rightParen)
    (hopen' : open''.kind = .leftBrace) (hclose' : close'.kind = .rightBrace)
    (hbody : (whileM block.inside declaration ((w₂ ++ close' :: rest).length + 1) (w₂ ++ close' :: rest)).Gives d
      (body.map some) (close' :: rest)) :
    (function declaration what (name :: open' :: (w₁ ++ close :: open'' :: (w₂ ++ close' :: rest)))).Gives d
      ⟨name, params, body⟩ rest := by
  refine expect_gives hname _ (expect_gives hopen _ (gives_bind (paramList_reads hparams hclose hcount _) ?_))
  exact expect_gives hclose _ (expect_gives hopen' _ (gives_bind (block_reads hclose' hbody) (gives_pure _ _)))

/-- The name, the superclass if there is one, and the methods between braces. -/
theorem classDeclaration_reads {declaration : Parser (Option SourceStmt)} {name open' close : Token}
    {heritage : Option (Reference Unit)} {methods : List SourceFun} {w₁ ts : List Token}
    (hname : name.kind = .identifier) (hheritage : Heritage heritage w₁) (hopen : open'.kind = .leftBrace)
    (hmethods : (whileM block.inside (function declaration "method") (ts.length + 1) ts).Gives d methods
      (close :: rest)) (hclose : close.kind = .rightBrace) :
    (classDeclaration declaration (name :: (w₁ ++ open' :: ts))).Gives d (.class name heritage methods) rest := by
  have hsized : (sized (whileM block.inside (function declaration "method")) ts).Gives d methods (close :: rest) :=
    hmethods
  refine expect_gives hname _ ?_
  cases hheritage with
  | none =>
    have hne : open'.kind ≠ .less := by rw [hopen]; decide
    rw [List.nil_append, bind_ok (accept_neg hne _)]
    exact expect_gives hopen _ (gives_bind hsized (expect_gives hclose _ (gives_pure _ _)))
  | some hless hsuperclass =>
    rw [List.cons_append, bind_ok (accept_pos hless _)]
    refine expect_gives hsuperclass _ ?_
    exact expect_gives hopen _ (gives_bind hsized (expect_gives hclose _ (gives_pure _ _)))

/-! ## Reading what is derived

What a clause needs of the tokens behind it is only that no `else` follows where one would be taken for its own.
Everything else is decided by what it begins with. -/

/-- The parsers for what is nested at most `n` deep. -/
abbrev nested (n : Nat) : Nested :=
  ⟨nestedStatement n, nestedDeclaration n⟩

/-- A token is in front that does not belong to the statement before it. -/
def Behind (dangling : Bool) (rest : List Token) : Prop :=
  ∃ t ts, rest = t :: ts ∧ (dangling = true → t.kind ≠ .else)

/-- A token that is not `else` may come behind everything. -/
theorem behind_cons {dangling : Bool} {t : Token} (ht : t.kind ≠ .else) (ts : List Token) :
    Behind dangling (t :: ts) :=
  ⟨t, ts, rfl, fun _ => ht⟩

/-- A parser reads each declaration with fewer than `m` tokens. -/
def ReadsEach (d : Dialect) (declaration : Parser (Option SourceStmt)) (m : Nat) : Prop :=
  ∀ s w rest, w.length < m →
    (∀ n, w.length ≤ n → (declarationWith (nested n) (w ++ rest)).Gives d s rest) →
    (declaration (w ++ rest)).Gives d (some s) rest

/-- In a block, the bound on the nesting is one that comes from outside. -/
theorem readsEach_nestedDeclaration (n : Nat) : ReadsEach d (nestedDeclaration n) n := by
  intro s w rest hlen h
  obtain ⟨n, rfl⟩ : ∃ m, n = m + 1 := ⟨n - 1, by omega⟩
  obtain ⟨ds, hds, hread⟩ := h n (by omega)
  refine ⟨ds, hds, ?_⟩
  change orSynchronize (declarationWith (nested n)) (w ++ rest) = _
  rw [orSynchronize, hread]

/-- In a program, it is taken anew for each declaration from the tokens that are left. -/
theorem readsEach_declaration (m : Nat) : ReadsEach d declaration m := by
  intro s w rest _ h
  refine readsEach_nestedDeclaration ((w ++ rest).length + 1) s w rest ?_ h
  rw [List.length_append]
  omega

/-- What is derived from a clause is read, if the bound on nesting is not less than the number of tokens. -/
def ClauseReads (d : Dialect) : Clause → List Token → Prop
  | .declaration s o, w => ∀ n rest, w.length ≤ n → Behind o rest →
      (declarationWith (nested n) (w ++ rest)).Gives d s rest
  | .statement s o, w => ∀ n rest, w.length ≤ n → Behind o rest →
      (statementWith (nested n) (w ++ rest)).Gives d s rest
  | .function f, w => ∀ n what rest, w.length ≤ n →
      (function (nestedDeclaration n) what (w ++ rest)).Gives d f rest
  | .declarations ss, w => ∀ {declaration : Parser (Option SourceStmt)} {more : Parser Bool} k last rest,
      ReadsEach d declaration (w.length + 1) →
      (∀ t ts, t.kind ∈ declarationHeads → more (t :: ts) = ⟨.ok true, t :: ts, []⟩) →
      more (last :: rest) = ⟨.ok false, last :: rest, []⟩ → last.kind ≠ .else →
      (w ++ last :: rest).length < k →
      (whileM more declaration k (w ++ last :: rest)).Gives d (ss.map some) (last :: rest)
  | .functions fs, w => ∀ n k close rest, w.length ≤ n → close.kind = .rightBrace →
      (w ++ close :: rest).length < k →
      (whileM block.inside (function (nestedDeclaration n) "method") k (w ++ close :: rest)).Gives d fs
        (close :: rest)

/-- A statement inside of another one, where the bound on the nesting is one lower. -/
theorem nestedStatement_reads {s : SourceStmt} {o : Bool} (h : ClauseReads d (.statement s o) w) {n : Nat}
    (hlen : w.length < n) (hrest : Behind o rest) : (nestedStatement n (w ++ rest)).Gives d s rest := by
  obtain ⟨n, rfl⟩ : ∃ m, n = m + 1 := ⟨n - 1, by omega⟩
  exact h n rest (by omega) hrest

/-- The declarations of a block up to its closing brace. -/
theorem blockBody_reads {ss : List SourceStmt} (h : ClauseReads d (.declarations ss) w) {n : Nat}
    (hlen : w.length < n) {close : Token} (hclose : close.kind = .rightBrace) (rest : List Token) :
    (whileM block.inside (nestedDeclaration n) ((w ++ close :: rest).length + 1) (w ++ close :: rest)).Gives d
      (ss.map some) (close :: rest) := by
  have heach : ReadsEach d (nestedDeclaration n) (w.length + 1) :=
    fun s w' rest hw' => readsEach_nestedDeclaration n s w' rest (by omega)
  refine h _ close rest heach (fun t ts ht => ?_) (inside_brace hclose rest) (by rw [hclose]; decide)
    (Nat.lt_succ_self _)
  refine inside_cons (fun h => ?_) (fun h => ?_) ts <;> rw [h] at ht <;> revert ht <;> decide

/-- What is derived is read, clause by clause. The tree that comes out is the one of the derivation, because at each
step the parser has only one choice, and the derivation made the same. -/
theorem clauseReads_of_derives {c : Clause} (hnearestElse : d.nearestElse = true) (h : c.Derives d w) :
    ClauseReads d c w := by
  -- every case runs the parser on the tokens of its own up to the first part, and from there the lemma of the
  -- production takes over; the hypothesis reads the part if the bound on the nesting allows for it, which is a
  -- comparison of lengths
  induction h with
  | @classDeclaration keyword name open' close heritage methods w₁ w₂ hkeyword hname hheritage hopen _ hclose
      ih =>
    intro n rest hlen _
    simp only [List.length_cons, List.length_append] at hlen
    have hmethods := ih n _ close rest (by omega) hclose (Nat.lt_succ_self _)
    have hlist : keyword :: name :: (w₁ ++ open' :: (w₂ ++ [close])) ++ rest
        = keyword :: name :: (w₁ ++ open' :: (w₂ ++ close :: rest)) := by simp
    unfold declarationWith
    rw [hlist, bind_ok (accept_pos hkeyword _), if_pos rfl]
    exact classDeclaration_reads hname hheritage hopen hmethods hclose
  | @functionDeclaration keyword f w hkeyword _ ih =>
    intro n rest hlen _
    rw [List.length_cons] at hlen
    -- the keywords are asked for in this order
    have hne : keyword.kind ≠ .class := by rw [hkeyword]; decide
    unfold declarationWith
    rw [List.cons_append, bind_ok (accept_neg hne _), if_neg (by decide)]
    rw [bind_ok (accept_pos hkeyword _), if_pos rfl]
    exact gives_bind (ih n "function" rest (by omega)) (gives_pure _ _)
  | variableDeclaration h =>
    intro n rest _ _
    obtain ⟨var, w', rfl, hvar⟩ := h.starts
    have hclass : var.kind ≠ .class := by rw [hvar]; decide
    have hfun : var.kind ≠ .fun := by rw [hvar]; decide
    unfold declarationWith
    rw [List.cons_append, bind_ok (accept_neg hclass _), if_neg (by decide)]
    rw [bind_ok (accept_neg hfun _), if_neg (by decide), bind_ok (accept_pos hvar _), if_pos rfl]
    exact varDeclaration_reads h rest
  | statement h ih =>
    intro n rest hlen hrest
    have hread := ih n rest hlen hrest
    obtain ⟨t, w', rfl, ht⟩ := h.starts
    rw [List.cons_append, declarationWith_statement ht]
    exact hread
  | expression h =>
    intro n rest _ _
    have hread := expressionStatement_reads h rest
    obtain ⟨t, w', rfl, ht⟩ := h.starts
    rw [List.cons_append, statementWith_expression ht]
    exact hread
  | @forLoop keyword open' semicolon close initializer condition increment body o w₁ w₂ w₃ w₄ hkeyword hopen
      hinitializer hcondition hsemicolon hincrement hclose _ ih =>
    intro n rest hlen hrest
    simp only [List.length_cons, List.length_append] at hlen
    rw [List.cons_append, statementWith_keyword (by simp [hkeyword])]
    simp only [hkeyword]
    -- the grammar writes the tree down, the parser makes it out of the clauses
    rw [← ForLoop.block_eq ⟨initializer, condition, increment, body⟩]
    exact forStatement_reads (forClauses_reads hopen hinitializer hcondition hsemicolon hincrement hclose
      (nestedStatement_reads ih (by omega) hrest))
  | @ifThen keyword open' close condition thenBranch o w₁ w₂ hkeyword hopen hcondition hclose _ ih =>
    intro n rest hlen hrest
    simp only [List.length_cons, List.length_append] at hlen
    have hlist : keyword :: open' :: (w₁ ++ close :: w₂) ++ rest
        = keyword :: open' :: (w₁ ++ close :: (w₂ ++ rest)) := by simp
    obtain ⟨t, ts, rfl, ht⟩ := hrest
    have hthen := nestedStatement_reads ih (n := n) (by omega) (behind_cons (ht rfl) ts)
    rw [hlist, statementWith_keyword (by simp [hkeyword])]
    simp only [hkeyword]
    exact ifStatement_reads hopen
      (expression_reads_to hcondition hclose (by decide) _) hclose hthen
      ⟨t, ts, rfl, ht rfl⟩
  | @ifElse keyword open' close else' condition thenBranch elseBranch o₁ o₂ w₁ w₂ w₃ hkeyword hopen hcondition
      hclose _ hnearest helse _ ih₁ ih₂ =>
    intro n rest hlen hrest
    simp only [List.length_cons, List.length_append] at hlen
    have hlist : keyword :: open' :: (w₁ ++ close :: (w₂ ++ else' :: w₃)) ++ rest
        = keyword :: open' :: (w₁ ++ close :: (w₂ ++ else' :: (w₃ ++ rest))) := by simp
    -- the branch before the `else` is not dangling
    have hbehind : Behind o₁ (else' :: (w₃ ++ rest)) :=
      ⟨else', w₃ ++ rest, rfl, fun h => absurd (hnearest hnearestElse) (by simp [h])⟩
    have hthen := nestedStatement_reads ih₁ (n := n) (by omega) hbehind
    rw [hlist, statementWith_keyword (by simp [hkeyword])]
    simp only [hkeyword]
    exact ifElseStatement_reads hopen
      (expression_reads_to hcondition hclose (by decide) _) hclose hthen helse
      (nestedStatement_reads ih₂ (by omega) hrest)
  | @printing keyword semicolon e w hkeyword he hsemicolon =>
    intro n rest _ _
    have hvalue := expression_reads_to he hsemicolon (by decide) rest
    rw [List.cons_append, statementWith_keyword (by simp [hkeyword]), List.append_assoc]
    simp only [hkeyword]
    exact gives_bind hvalue (expect_gives hsemicolon _ (gives_pure _ _))
  | @returning keyword semicolon value w hkeyword hvalue hsemicolon =>
    intro n rest _ _
    have hread := expressionUnless_reads hvalue hsemicolon (by decide) (by decide) rest
    rw [List.cons_append, statementWith_keyword (by simp [hkeyword]), List.append_assoc]
    simp only [hkeyword]
    exact gives_bind hread (expect_gives hsemicolon _ (gives_pure _ _))
  | @whileLoop keyword open' close condition body o w₁ w₂ hkeyword hopen hcondition hclose _ ih =>
    intro n rest hlen hrest
    simp only [List.length_cons, List.length_append] at hlen
    have hlist : keyword :: open' :: (w₁ ++ close :: w₂) ++ rest
        = keyword :: open' :: (w₁ ++ close :: (w₂ ++ rest)) := by simp
    rw [hlist, statementWith_keyword (by simp [hkeyword])]
    simp only [hkeyword]
    exact whileStatement_reads hopen
      (expression_reads_to hcondition hclose (by decide) _) hclose
      (nestedStatement_reads ih (by omega) hrest)
  | @block open' close ss w hopen _ hclose ih =>
    intro n rest hlen _
    simp only [List.length_cons, List.length_append] at hlen
    have hbody := blockBody_reads ih (n := n) (by omega) hclose rest
    rw [List.cons_append, statementWith_keyword (by simp [hopen]), List.append_assoc]
    simp only [hopen]
    exact gives_bind (block_reads hclose hbody) (gives_pure _ _)
  | noDeclaration =>
    intro declaration more k last rest _ _ hlast _ hk
    obtain ⟨k, rfl⟩ : ∃ k', k = k' + 1 := ⟨k - 1, by omega⟩
    exact .silent (whileM_none hlast)
  | @moreDeclarations s o ss w₁ w₂ hs hss ih₁ ih₂ =>
    intro declaration more k last rest heach hmore hlast helse hk
    obtain ⟨k, rfl⟩ : ∃ k', k = k' + 1 := ⟨k - 1, by omega⟩
    simp only [List.length_append, List.length_cons] at heach hk
    -- no `else` comes behind a declaration
    have hbehind : Behind o (w₂ ++ last :: rest) := by
      rcases hss.starts with rfl | ⟨t, w', rfl, ht⟩
      · exact behind_cons helse rest
      · refine behind_cons (fun h => ?_) _
        rw [h] at ht
        exact absurd ht (by decide)
    have hitem : (declaration (w₁ ++ (w₂ ++ last :: rest))).Gives d (some s) (w₂ ++ last :: rest) :=
      heach s w₁ _ (by omega) fun n hn => ih₁ n _ hn hbehind
    obtain ⟨t, w', rfl, ht⟩ := hs.starts
    rw [List.length_cons] at hk
    have htail := ih₂ k last rest (fun s w' rest hw' => heach s w' rest (by omega)) hmore hlast helse
      (by simp only [List.length_append, List.length_cons]; omega)
    rw [List.append_assoc]
    exact whileM_gives (hmore t _ ht) hitem htail
  | @function name open' close open'' close' params body w₁ w₂ hname hopen hparams hfits hclose hopen' _ hclose'
      ih =>
    intro n what rest hlen
    simp only [List.length_cons, List.length_append] at hlen
    have hlist : name :: open' :: (w₁ ++ close :: open'' :: (w₂ ++ [close'])) ++ rest
        = name :: open' :: (w₁ ++ close :: open'' :: (w₂ ++ close' :: rest)) := by simp
    rw [hlist]
    exact function_reads hname hopen hparams hfits hclose hopen' hclose'
      (blockBody_reads ih (by omega) hclose' rest)
  | noFunction =>
    intro n k close rest _ hclose hk
    obtain ⟨k, rfl⟩ : ∃ k', k = k' + 1 := ⟨k - 1, by omega⟩
    exact .silent (whileM_none (inside_brace hclose rest))
  | @moreFunctions f fs w₁ w₂ hf _ ih₁ ih₂ =>
    intro n k close rest hlen hclose hk
    obtain ⟨k, rfl⟩ : ∃ k', k = k' + 1 := ⟨k - 1, by omega⟩
    have hitem := ih₁ n "method" (w₂ ++ close :: rest) (by rw [List.length_append] at hlen; omega)
    obtain ⟨t, w', rfl, ht⟩ := hf.starts
    simp only [List.length_append, List.length_cons] at hlen hk
    have htail := ih₂ n k close rest (by omega) hclose
      (by simp only [List.length_append, List.length_cons]; omega)
    rw [List.append_assoc]
    exact whileM_gives (inside_cons (by rw [ht]; decide) (by rw [ht]; decide) _) hitem htail

end Parser

/-- A program in which each `else` belongs to the nearest open `if` is parsed to its tree. -/
theorem parse_gives_program {d : Dialect} (hnearest : d.nearestElse = true) {w : List Token} {ss : List SourceStmt}
    {eof : Token} (heof : eof.kind = .eof) (h : Program d ss w) :
    ∃ ds, d.Excuses ds ∧ parse (w ++ [eof]) = some ⟨ss, ds⟩ := by
  have hmore : ∀ (t : Token) ts, t.kind ∈ declarationHeads →
      (do return !(← Parser.atEnd) : Parser Bool) (t :: ts) = ⟨.ok true, t :: ts, []⟩ := by
    intro t ts ht
    have hne : (t.kind == .eof) = false := by
      refine beq_eq_false_iff_ne.mpr fun h => ?_
      rw [h] at ht
      exact absurd ht (by decide)
    exact (Parser.bind_ok (Parser.atEnd_cons t ts)).trans (by rw [hne]; rfl)
  have hlast : (do return !(← Parser.atEnd) : Parser Bool) [eof] = ⟨.ok false, [eof], []⟩ :=
    (Parser.bind_ok (Parser.atEnd_cons eof [])).trans (by rw [heof]; rfl)
  have hread := Parser.clauseReads_of_derives hnearest h _ eof [] (Parser.readsEach_declaration _) hmore hlast
    (by rw [heof]; decide) (Nat.lt_succ_self _)
  have hprogram : (Parser.program (w ++ [eof])).Gives d ((ss.map some).filterMap id) [eof] :=
    Parser.gives_bind hread (Parser.gives_pure _ _)
  obtain ⟨ds, hds, hprogram⟩ := hprogram
  refine ⟨ds, hds, ?_⟩
  rw [parse, hprogram, List.filterMap_map]
  simp

/-- A program of the grammar is parsed to its tree, without complaints. -/
theorem parse_of_program {w : List Token} {ss : List SourceStmt} {eof : Token} (heof : eof.kind = .eof)
    (h : Program .standard ss w) : parse (w ++ [eof]) = some ⟨ss, []⟩ := by
  obtain ⟨ds, hds, hparse⟩ := parse_gives_program rfl heof h
  rw [hparse, hds.eq_nil rfl rfl]

end LoxLang
