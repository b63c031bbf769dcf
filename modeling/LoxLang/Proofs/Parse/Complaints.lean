import LoxLang.Proofs.Parse.ProgramSound

/-!
# What parsers leave and what they complain about

Two facts about every parser on every list of tokens, broken or not: it leaves tokens from the end of its list, and
it complains only about tokens of the list. It complains that a token does not fit where that token is in front of it.
An inner parser may complain about a token that was read before, but then the relaxed grammar excuses the complaint.

* **`Parser.Tame`** — both, as one triple with a rule for each way to compose parsers.
* **`parse_complaints`** — so it is with programs.
* **`ended_of_parse`** — a program ends at an end token.
-/

namespace LoxLang

/-- A token does not fit. -/
def Cause.isMisfit : Cause → Bool
  | .expectedToken _ | .expectExpression => true
  | _ => false

namespace Parser

variable {α β : Type} {U : List Token}

/-- On tokens among `U`, the parser leaves the end of its list, and it complains only about tokens of `U`. It complains
about tokens of its list that do not fit, or the relaxed grammar excuses the complaint. -/
def Tame (U : List Token) (p : Parser α) : Prop :=
  ∀ ts, ts ⊆ U → (p ts).rest <:+ ts ∧ ∀ d ∈ (p ts).diagnostics, ∃ cause, ∃ t ∈ U, d = .ofToken .parse cause t ∧
    (Dialect.relaxed.excuses cause = true ∨ cause.isMisfit = true ∧ t ∈ ts)

/-! ## Rules

The triple says what one parser does on any list out of `U`. It composes because what is left is again such a list. -/

/-- A parser that is silent and leaves the end of its list. -/
theorem Tame.silent {p : Parser α} (h : ∀ ts, (p ts).rest <:+ ts ∧ (p ts).diagnostics = []) : Tame U p := by
  intro ts _
  obtain ⟨hrest, hds⟩ := h ts
  rw [hds]
  exact ⟨hrest, List.forall_mem_nil _⟩

/-- A value is returned and the list is left as it is. -/
theorem Tame.pure (a : α) : Tame U (pure a : Parser α) :=
  .silent fun ts => ⟨List.suffix_refl ts, rfl⟩

/-- To give up without a word leaves the list as it is. -/
theorem Tame.fail (e : ParseFailure) : Tame U (fail e : Parser α) :=
  .silent fun ts => ⟨List.suffix_refl ts, rfl⟩

/-- What the second parser leaves and complains about stands at the end of what the first one left, so at the end of the
whole. -/
theorem Tame.bind {p : Parser α} {f : α → Parser β} (hp : Tame U p) (hf : ∀ a, Tame U (f a)) :
    Tame U (p >>= f) := by
  intro ts hts
  obtain ⟨hrest, hds⟩ := hp ts hts
  rcases hreply : p ts with ⟨e | a, rest, ds⟩ <;> rw [hreply] at hrest hds
  · rw [bind_error hreply]
    exact ⟨hrest, hds⟩
  · rw [bind_reply hreply]
    -- the second parser starts on what the first has left
    have hsub : rest ⊆ U := fun t ht => hts (hrest.subset ht)
    obtain ⟨hrest', hds'⟩ := hf a rest hsub
    refine ⟨hrest'.trans hrest, fun d hd => ?_⟩
    rcases List.mem_append.mp hd with hd | hd
    · exact hds d hd
    · obtain ⟨cause, t, ht, rfl, hcause⟩ := hds' d hd
      exact ⟨cause, t, ht, rfl, hcause.imp_right fun h => ⟨h.1, hrest.subset h.2⟩⟩

/-- Tameness does not speak about results. -/
theorem Tame.map {p : Parser α} (g : α → β) (hp : Tame U p) : Tame U (g <$> p) :=
  hp.bind fun a => .pure (g a)

/-- It is asked for every bound on the rounds. -/
theorem Tame.sized {p : Nat → Parser α} (h : ∀ n, Tame U (p n)) : Tame U (sized p) :=
  fun ts hts => h (ts.length + 1) ts hts

/-- Both branches are asked to be tame, since the test is not known here. -/
theorem Tame.ite {c : Prop} [Decidable c] {p q : Parser α} (hp : Tame U p) (hq : Tame U q) :
    Tame U (if c then p else q) := by
  split
  · exact hp
  · exact hq

/-! ## Single tokens

Here tokens are read and complaints are made. Complaints are of two sorts: about the token in front, for which any cause
will do that is a misfit, and about a token that the caller names. -/

/-- What is done with the token in front. -/
theorem Tame.look {f : Token → Parser α} (hf : ∀ t ∈ U, Tame U (f t)) : Tame U (peek >>= f) := by
  intro ts hts
  cases ts with
  | nil => exact ⟨List.suffix_refl [], List.forall_mem_nil _⟩
  | cons t ts =>
    rw [bind_ok (peek_cons t ts)]
    exact hf t (hts List.mem_cons_self) _ hts

/-- To look is to read nothing. -/
theorem tame_peek : Tame U peek := by
  apply Tame.silent
  intro ts
  cases ts <;> exact ⟨List.suffix_refl _, rfl⟩

/-- The end is seen in front. -/
theorem tame_atEnd : Tame U atEnd :=
  tame_peek.bind fun _ => .pure _

/-- A kind is seen in front. -/
theorem tame_check (kind : Kind) : Tame U (check kind) :=
  tame_peek.bind fun _ => .pure _

/-- A token that is taken is one of the list. -/
theorem Tame.accept? {kinds : List Kind} {f : Option Token → Parser α} (hsome : ∀ t ∈ U, Tame U (f (some t)))
    (hnone : Tame U (f none)) : Tame U (accept? kinds >>= f) := by
  intro ts hts
  cases ts with
  | nil => exact ⟨List.suffix_refl [], List.forall_mem_nil _⟩
  | cons t ts =>
    by_cases ht : t.kind ∈ kinds
    · rw [bind_ok (accept?_pos ht ts)]
      obtain ⟨hrest, hds⟩ := hsome t (hts List.mem_cons_self) ts fun u hu => hts (List.mem_cons_of_mem t hu)
      refine ⟨hrest.trans (List.suffix_cons t ts), fun d hd => ?_⟩
      obtain ⟨cause, u, hu, rfl, hcause⟩ := hds d hd
      exact ⟨cause, u, hu, rfl, hcause.imp_right fun h => ⟨h.1, List.mem_cons_of_mem t h.2⟩⟩
    · rw [bind_ok (accept?_neg ht ts)]
      exact hnone _ hts

/-- At most the token in front is taken. -/
theorem tame_accept (kind : Kind) : Tame U (accept kind) :=
  .accept? (fun _ _ => .pure _) (.pure _)

/-- A complaint about a token that was read before. Only causes that the relaxed grammar excuses are reported in this
way. -/
theorem tame_reportOn {t : Token} (ht : t ∈ U) {cause : Cause} (hcause : Dialect.relaxed.excuses cause = true) :
    Tame U (reportOn t cause) := by
  intro ts _
  exact ⟨List.suffix_refl ts, fun d hd => ⟨cause, t, ht, List.mem_singleton.mp hd, .inl hcause⟩⟩

/-- A complaint about the token in front, which is one of the list. -/
theorem tame_report {cause : Cause} (hcause : Dialect.relaxed.excuses cause = true ∨ cause.isMisfit = true) :
    Tame U (report cause) := by
  intro ts hts
  cases ts with
  | nil => exact ⟨List.suffix_refl [], List.forall_mem_nil _⟩
  | cons t ts =>
    refine ⟨List.suffix_refl (t :: ts), fun d hd => ?_⟩
    exact ⟨cause, t, hts List.mem_cons_self, List.mem_singleton.mp hd,
      hcause.imp_right fun h => ⟨h, List.mem_cons_self⟩⟩

/-- The complaint comes from `report`; afterwards the parser fails where it stands. -/
theorem tame_reject {cause : Cause} (hcause : cause.isMisfit = true) : Tame U (reject cause : Parser α) :=
  (tame_report (.inr hcause)).bind fun _ => .fail _

/-- The token is taken, or it is rejected. -/
theorem tame_expect (kind : Kind) (expected : String) : Tame U (expect kind expected) :=
  .accept? (fun _ _ => .pure _) (tame_reject rfl)

/-! ## Repetition

By induction on the bound: each round is a composition of parsers that are known to be tame. -/

/-- The test may complain as well as the items. -/
theorem tame_whileM {more : Parser Bool} {item : Parser α} (hmore : Tame U more) (hitem : Tame U item)
    (n : Nat) : Tame U (whileM more item n) := by
  induction n with
  | zero => exact .fail _
  | succ n ih =>
    refine hmore.bind fun go => ?_
    cases go with
    | false => exact .pure _
    | true => exact hitem.bind fun _ => ih.bind fun _ => .pure _

/-- Beyond the items there is one more complaint, that there are too many of them. It is not a misfit but a limit, and
excused. -/
theorem tame_commaSeparated {item : Parser α} (hitem : Tame U item) {tooMany : Cause}
    (hmany : Dialect.relaxed.excuses tooMany = true) (n count : Nat) :
    Tame U (commaSeparated tooMany item n count) := by
  induction n generalizing count with
  | zero => exact .fail _
  | succ n ih =>
    have hrest : Tame U (do
        let a ← item
        if ← accept .comma then
          return a :: (← commaSeparated tooMany item n (count + 1))
        else
          return [a]) :=
      hitem.bind fun _ => (tame_accept _).bind fun _ => .ite ((ih _).bind fun _ => .pure _) (.pure _)
    unfold commaSeparated
    exact .ite ((tame_report (.inl hmany)).bind fun _ => hrest) hrest

theorem tame_untilParen {item : Parser α} (hitem : Tame U item) {tooMany : Cause}
    (hmany : Dialect.relaxed.excuses tooMany = true) : Tame U (untilParen tooMany item) :=
  (tame_check _).bind fun _ => .ite (.pure _) (.sized fun n => tame_commaSeparated hitem hmany n 0)

/-! ## Expressions

From the tightest level outwards, with the parser for whole expressions tame by assumption. The proofs follow the
definitions. -/

section Expressions

variable {self : Parser SourceExpr} (hself : Tame U self)
include hself

/-- What is in front is taken as an operand, or it does not fit. -/
theorem tame_primary : Tame U (primary self) := by
  have htake : ∀ e, Tame U (primary.take e) := fun e =>
    .silent fun ts => ⟨List.drop_suffix 1 ts, rfl⟩
  refine .look fun t _ => ?_
  cases t.kind with
  | «super» =>
    exact (tame_expect _ _).bind fun _ => (tame_expect _ _).bind fun _ => (tame_expect _ _).bind fun _ => .pure _
  | leftParen =>
    exact (tame_expect _ _).bind fun _ => hself.bind fun _ => (tame_expect _ _).bind fun _ => .pure _
  | «false» | «true» | nil | number | string | this | identifier => exact htake _
  | _ => exact tame_reject rfl

/-- Arguments and properties behind an operand. -/
theorem tame_callTail (n : Nat) (e : SourceExpr) : Tame U (callTail self n e) := by
  induction n generalizing e with
  | zero => exact .fail _
  | succ n ih =>
    refine (tame_accept _).bind fun _ => .ite ?_ ?_
    · exact (tame_untilParen hself (by rfl)).bind fun _ => (tame_expect _ _).bind fun _ => ih _
    · exact (tame_accept _).bind fun _ => .ite ((tame_expect _ _).bind fun _ => ih _) (.pure _)

/-- An operand and what is applied to it. -/
theorem tame_call : Tame U (call self) :=
  (tame_primary hself).bind fun e => .sized fun n => tame_callTail hself n e

omit hself in
/-- Operators in front of an operand are taken one by one. -/
theorem tame_unaryOperators (n : Nat) : Tame U (unaryOperators n) := by
  induction n with
  | zero => exact .fail _
  | succ n ih => exact .accept? (fun _ _ => ih.bind fun _ => .pure _) (.pure _)

theorem tame_unary : Tame U (unary self) :=
  (Tame.sized tame_unaryOperators).bind fun _ => (tame_call hself).bind fun _ => .pure _

omit hself in
/-- Operators of one level with their right operands. -/
theorem tame_operatorTail {operand : Parser SourceExpr} (hoperand : Tame U operand) (kinds : List Kind)
    (build : SourceExpr → Token → SourceExpr → SourceExpr) (n : Nat) (left : SourceExpr) :
    Tame U (operatorTail kinds build operand n left) := by
  induction n generalizing left with
  | zero => exact .fail _
  | succ n ih => exact .accept? (fun _ _ => hoperand.bind fun _ => ih _) (.pure _)

omit hself in
/-- A level of binary operators, over the level below it. -/
theorem tame_leftAssociative {operand : Parser SourceExpr} (hoperand : Tame U operand) (kinds : List Kind)
    (build : SourceExpr → Token → SourceExpr → SourceExpr) : Tame U (leftAssociative kinds build operand) :=
  hoperand.bind fun left => .sized fun n => tame_operatorTail hoperand kinds build n left

/-- All the levels of binary operators, one over the other. -/
theorem tame_disjunction : Tame U (disjunction self) := by
  have hfactor : Tame U (factor self) := tame_leftAssociative (tame_unary hself) _ _
  have hterm : Tame U (term self) := tame_leftAssociative hfactor _ _
  have hcomparison : Tame U (comparison self) := tame_leftAssociative hterm _ _
  have hequality : Tame U (equality self) := tame_leftAssociative hcomparison _ _
  have hconjunction : Tame U (conjunction self) := tame_leftAssociative hequality _ _
  exact tame_leftAssociative hconjunction _ _

/-- The equals sign that is complained about has been read long before. -/
theorem tame_assignment : Tame U (assignment self) := by
  refine (tame_disjunction hself).bind fun target => .accept? (fun equals hequals => ?_) (.pure _)
  refine hself.bind fun value => ?_
  cases target with
  | «variable» | get => exact .pure _
  | _ => exact (tame_reportOn hequals rfl).bind fun _ => .pure _

omit hself in
/-- By induction on the nesting, which ties `self` back. -/
theorem tame_nestedExpression (n : Nat) : Tame U (nestedExpression n) := by
  induction n with
  | zero => exact Tame.fail (α := SourceExpr) _
  | succ n ih => exact tame_assignment ih

omit hself in
/-- The bound on the nesting is the number of tokens. -/
theorem tame_expression : Tame U expression :=
  .sized tame_nestedExpression

end Expressions

/-! ## Recovery

To recover is to drop tokens without a word, so what is left still stands at the end of the list. -/

/-- Tokens are dropped up to the start of a statement, silently. -/
theorem nextStatement_rest (previous : Token) (ts : List Token) :
    (nextStatement previous ts).rest <:+ ts ∧ (nextStatement previous ts).diagnostics = [] := by
  induction ts generalizing previous with
  | nil => exact ⟨List.suffix_refl [], rfl⟩
  | cons t ts ih =>
    unfold nextStatement
    split
    · exact ⟨List.suffix_refl _, rfl⟩
    · exact ⟨(ih t).1.trans (List.suffix_cons t ts), (ih t).2⟩

/-- One token is dropped in any case, and then up to the start of a statement. -/
theorem synchronize_rest (ts : List Token) :
    (synchronize ts).rest <:+ ts ∧ (synchronize ts).diagnostics = [] := by
  cases ts with
  | nil => exact ⟨List.suffix_refl [], rfl⟩
  | cons t ts =>
    rw [synchronize]
    split
    · exact ⟨List.suffix_refl _, rfl⟩
    · obtain ⟨hrest, hds⟩ := nextStatement_rest t ts
      exact ⟨hrest.trans (List.suffix_cons t ts), hds⟩

/-- A declaration that was given up has complained already; recovery adds nothing to that. -/
theorem Tame.orSynchronize {p : Parser SourceStmt} (hp : Tame U p) : Tame U (orSynchronize p) := by
  intro ts hts
  obtain ⟨hrest, hds⟩ := hp ts hts
  unfold Parser.orSynchronize
  -- a declaration, a broken one that is passed over, or the end of the list
  split
  next heq =>
    rw [heq] at hrest hds
    exact ⟨hrest, hds⟩
  next rest _ heq =>
    rw [heq] at hrest hds
    exact ⟨(synchronize_rest rest).1.trans hrest, hds⟩
  next heq =>
    rw [heq] at hrest hds
    exact ⟨hrest, hds⟩

/-! ## Statements and declarations

The same walk over the productions of statements, with the two parsers that they call in turn tame by assumption. -/

/-- A block goes on as long as neither its brace nor the end is in front. -/
theorem tame_inside : Tame U block.inside :=
  tame_peek.bind fun _ => .pure _

/-- The keyword has been read by the caller; what follows is checked token by token. -/
theorem tame_varDeclaration : Tame U varDeclaration :=
  (tame_expect _ _).bind fun _ => (tame_accept _).bind fun _ =>
    .ite (tame_expression.bind fun _ => (tame_expect _ _).bind fun _ => .pure _)
      ((tame_expect _ _).bind fun _ => .pure _)

theorem tame_expressionStatement : Tame U expressionStatement :=
  tame_expression.bind fun _ => (tame_expect _ _).bind fun _ => .pure _

/-- A clause of a loop may be missing, which is seen by the token that ends it. -/
theorem tame_expressionUnless (kind : Kind) : Tame U (expressionUnless kind) :=
  (tame_check _).bind fun _ => .ite (.pure _) (tame_expression.bind fun _ => .pure _)

/-- Nothing, a declaration or an expression. -/
theorem tame_loopInitializer : Tame U loopInitializer :=
  (tame_accept _).bind fun _ => .ite (.pure _) <| (tame_accept _).bind fun _ =>
    .ite (tame_varDeclaration.bind fun _ => .pure _) (tame_expressionStatement.bind fun _ => .pure _)

section Nested

variable {statement : Parser SourceStmt} {declaration : Parser (Option SourceStmt)}
  (hstatement : Tame U statement) (hdeclaration : Tame U declaration)

include hdeclaration in
theorem tame_block : Tame U (block declaration) :=
  (Tame.sized fun n => tame_whileM tame_inside hdeclaration n).bind fun _ => (tame_expect _ _).bind fun _ => .pure _

include hdeclaration in
/-- Parameters and a body. Too many parameters are complained about, and excused. -/
theorem tame_function (what : String) : Tame U (function declaration what) :=
  (tame_expect _ _).bind fun _ => (tame_expect _ _).bind fun _ =>
    (tame_untilParen (tame_expect _ _) (by rfl)).bind fun _ => (tame_expect _ _).bind fun _ =>
      (tame_expect _ _).bind fun _ => (tame_block hdeclaration).bind fun _ => .pure _

include hdeclaration in
/-- The superclass, if there is one, and methods up to the brace. -/
theorem tame_classDeclaration : Tame U (classDeclaration declaration) := by
  have hbody : ∀ (name : Token) (superclass : Option (Reference Unit)), Tame U (do
      let _ ← expect .leftBrace "'\x7b' before class body"
      let methods ← sized (whileM block.inside (function declaration "method"))
      let _ ← expect .rightBrace "'\x7d' after class body"
      return Stmt.class name superclass methods) := fun _ _ =>
    (tame_expect _ _).bind fun _ =>
      (Tame.sized fun n => tame_whileM tame_inside (tame_function hdeclaration _) n).bind fun _ =>
        (tame_expect _ _).bind fun _ => .pure _
  exact (tame_expect _ _).bind fun _ => (tame_accept _).bind fun _ =>
    .ite ((tame_expect _ _).bind fun _ => hbody _ _) (hbody _ _)

include hstatement in
/-- The clauses and the body; the tree that is made of them has been read before. -/
theorem tame_forStatement : Tame U (forStatement statement) :=
  (tame_expect _ _).bind fun _ => tame_loopInitializer.bind fun _ =>
    (tame_expressionUnless _).bind fun _ => (tame_expect _ _).bind fun _ =>
      (tame_expressionUnless _).bind fun _ => (tame_expect _ _).bind fun _ => hstatement.bind fun _ => .pure _

include hstatement in
/-- The branch for `else` is there if the keyword is in front. -/
theorem tame_ifStatement : Tame U (ifStatement statement) :=
  (tame_expect _ _).bind fun _ => tame_expression.bind fun _ => (tame_expect _ _).bind fun _ =>
    hstatement.bind fun _ => (tame_accept _).bind fun _ => .ite (hstatement.bind fun _ => .pure _) (.pure _)

theorem tame_printStatement : Tame U printStatement :=
  tame_expression.bind fun _ => (tame_expect _ _).bind fun _ => .pure _

theorem tame_returnStatement (keyword : Token) : Tame U (returnStatement keyword) :=
  (tame_expressionUnless _).bind fun _ => (tame_expect _ _).bind fun _ => .pure _

include hstatement in
/-- A condition in parentheses, then the body. -/
theorem tame_whileStatement : Tame U (whileStatement statement) :=
  (tame_expect _ _).bind fun _ => tame_expression.bind fun _ => (tame_expect _ _).bind fun _ =>
    hstatement.bind fun _ => .pure _

include hstatement hdeclaration

/-- The keyword in front decides which production is taken. -/
theorem tame_statementWith : Tame U (statementWith ⟨statement, declaration⟩) := by
  refine .accept? (fun t _ => ?_) tame_expressionStatement
  dsimp only
  cases t.kind with
  | «for» => exact tame_forStatement hstatement
  | «if» => exact tame_ifStatement hstatement
  | print => exact tame_printStatement
  | «return» => exact tame_returnStatement t
  | «while» => exact tame_whileStatement hstatement
  | _ => exact (tame_block hdeclaration).map _

/-- A declaration by its keyword, otherwise a statement; in either case with recovery around it. -/
theorem tame_declarationWith : Tame U (declarationWith ⟨statement, declaration⟩) :=
  (tame_accept _).bind fun _ => .ite (tame_classDeclaration hdeclaration) <|
    (tame_accept _).bind fun _ => .ite ((tame_function hdeclaration _).map _) <|
      (tame_accept _).bind fun _ => .ite tame_varDeclaration (tame_statementWith hstatement hdeclaration)

end Nested

/-- Statements and declarations of every depth of nesting. -/
theorem tame_nested (n : Nat) : Tame U (nestedStatement n) ∧ Tame U (nestedDeclaration n) := by
  induction n with
  | zero => exact ⟨Tame.fail (α := SourceStmt) _, Tame.fail (α := Option SourceStmt) _⟩
  | succ n ih =>
    exact ⟨tame_statementWith ih.1 ih.2, Tame.orSynchronize (tame_declarationWith ih.1 ih.2)⟩

/-- The bound on the nesting is the number of tokens. -/
theorem tame_declaration : Tame U declaration :=
  .sized fun n => (tame_nested n).2

/-- The test of the outermost loop. -/
theorem tame_notAtEnd : Tame U (do return !(← atEnd)) :=
  tame_atEnd.bind fun _ => .pure _

theorem tame_program : Tame U program :=
  (Tame.sized fun n => tame_whileM tame_notAtEnd tame_declaration n).bind fun _ => .pure _

/-! ## The end token

The outermost loop stops where the end token is in front, and that is where a parse stops. The bound on its rounds is no
other way out: every round takes a token. -/

/-- Of two parsers with a result, each has one. -/
theorem result_bind {p : Parser α} {f : α → Parser β} {ts : List Token} {b : β}
    (h : ((p >>= f) ts).result = .ok b) :
    ∃ a, (p ts).result = .ok a ∧ (f a (p ts).rest).result = .ok b ∧ ((p >>= f) ts).rest = (f a (p ts).rest).rest := by
  rcases hreply : p ts with ⟨e | a, rest, ds⟩
  · rw [bind_error hreply] at h
    cases h
  · rw [bind_reply hreply] at h ⊢
    exact ⟨a, rfl, h, rfl⟩

/-- A loop up to the end token that has a result has come to that token. -/
theorem whileM_atEnd {item : Parser α} (n : Nat) (ts : List Token) {as : List α}
    (h : (whileM (do return !(← atEnd)) item n ts).result = .ok as) :
    ∃ t ∈ (whileM (do return !(← atEnd)) item n ts).rest, t.kind = .eof := by
  induction n generalizing ts as with
  | zero => cases h
  | succ n ih =>
    cases ts with
    | nil => cases h
    | cons t ts =>
      have hmore : (do return !(← atEnd) : Parser Bool) (t :: ts) = ⟨.ok !(t.kind == .eof), t :: ts, []⟩ :=
        bind_ok (atEnd_cons t ts)
      rw [whileM, bind_ok hmore] at h ⊢
      by_cases ht : t.kind = .eof
      · rw [beq_iff_eq.mpr ht]
        exact ⟨t, List.mem_cons_self, ht⟩
      · rw [beq_eq_false_iff_ne.mpr ht] at h ⊢
        -- an item, and behind it the rest of the loop
        obtain ⟨a, -, hloop, hrest⟩ := result_bind (p := item) h
        obtain ⟨as', hloop', -, hrest'⟩ := result_bind hloop
        obtain ⟨u, hu, heof⟩ := ih _ hloop'
        refine ⟨u, ?_, heof⟩
        have heq := hrest.trans hrest'
        exact heq ▸ hu

end Parser

/-! ## Whole programs

The outermost loop goes up to the end token, which no production takes. -/

/-- A list of tokens that is parsed has an end token. -/
theorem ended_of_parse {tokens : List Token} {parsed : Parsed} (h : parse tokens = some parsed) :
    Ended tokens := by
  unfold parse at h
  split at h
  next program rest ds hprogram =>
    have hresult : (Parser.program tokens).result = .ok program := by rw [hprogram]
    obtain ⟨body, hloop, -⟩ := Parser.result_bind hresult
    obtain ⟨t, ht, heof⟩ := Parser.whileM_atEnd _ _ hloop
    have hsuffix := (Parser.tame_whileM Parser.tame_notAtEnd Parser.tame_declaration (tokens.length + 1) tokens
      (List.Subset.refl _)).1
    exact ⟨t, hsuffix.subset ht, heof⟩
  next => cases h

/-- The complaints about a list of tokens are about tokens of the list. -/
theorem parse_complaints {tokens : List Token} {parsed : Parsed} (h : parse tokens = some parsed) :
    ∀ d ∈ parsed.diagnostics, ∃ cause, ∃ t ∈ tokens, d = .ofToken .parse cause t := by
  unfold parse at h
  split at h
  next program rest ds hprogram =>
    have htame := (Parser.tame_program (U := tokens) tokens (List.Subset.refl _)).2
    rw [hprogram] at htame
    cases h
    intro d hd
    obtain ⟨cause, t, ht, rfl, -⟩ := htame d hd
    exact ⟨cause, t, ht, rfl⟩
  next => cases h

end LoxLang
