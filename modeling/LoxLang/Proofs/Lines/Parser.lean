import LoxLang.Proofs.Lines.Machines
import LoxLang.Proofs.Parse.Replies

/-!
# Parsing on other lines

A parser asks for the kinds and the literals of tokens. On tokens that are moved to other lines it does the same
thing: its result, what it leaves and what it complains about are moved.

* **`Parser.Moves`** — a pair of parsers of which the second one does on moved tokens what the first one does on the
  tokens themselves, with a rule for each way to compose parsers.
* **`parse_moved`** — so it is with programs, broken ones too.

The grammar's side of this is in `Proofs.Lines.Trees`: what is derived from tokens is derived, moved, from the moved
tokens. That says nothing about broken programs. Here the parser itself is followed, one rule for each way in which
parsers are put together; the productions are then composed from these rules as the parser is composed from its
combinators, and change when it does.
-/

namespace LoxLang

/-! ## Moved replies

Three things of a reply have lines: its result, the tokens that are left, and the tokens that were complained about. All
of them move together, and a failure stays the failure that it was. -/

section

variable (L : Lines)

/-- A reply of which everything is moved. -/
def Reply.moved {α : Type} (move : α → α) (reply : Reply α) : Reply α :=
  ⟨reply.result.map move, reply.rest.map (·.moved L), reply.diagnostics.map (·.moved L)⟩

/-- A program and its diagnostics with every token moved. -/
def Parsed.moved (parsed : Parsed) : Parsed :=
  ⟨Stmt.movedAll L parsed.program, parsed.diagnostics.map (·.moved L)⟩

/-! ### Lists of trees

Trees in lists are moved one by one. -/

/-- Moving the arguments of a call is moving each of them. -/
theorem Expr.moved_all_eq {ρ : Type} (es : List (Expr ρ)) : Expr.moved.all L es = es.map (·.moved L) := by
  induction es with
  | nil => rfl
  | cons e es ih => exact congrArg (e.moved L :: ·) ih

theorem Stmt.movedAll_eq {ρ : Type} (ss : List (Stmt ρ)) : Stmt.movedAll L ss = ss.map (·.moved L) := by
  induction ss with
  | nil => rfl
  | cons s ss ih => exact congrArg (s.moved L :: ·) ih

theorem FunDecl.movedAll_eq {ρ : Type} (ds : List (FunDecl ρ)) : FunDecl.movedAll L ds = ds.map (·.moved L) := by
  induction ds with
  | nil => rfl
  | cons d ds ih => exact congrArg (d.moved L :: ·) ih

/-- A stack of prefix operators is moved operator by operator. The parser collects the operators first and applies them
when the operand has been read, innermost last. -/
theorem Expr.moved_foldr_unary {ρ : Type} (operators : List Token) (operand : Expr ρ) :
    (operators.foldr .unary operand).moved L = (operators.map (·.moved L)).foldr .unary (operand.moved L) := by
  induction operators with
  | nil => rfl
  | cons t ts ih => exact congrArg (Expr.unary (t.moved L)) ih

/-- Of moved declarations those remain that are not broken. -/
theorem Stmt.movedAll_filterMap (found : List (Option SourceStmt)) :
    Stmt.movedAll L (found.filterMap id) = (found.map (Option.map (·.moved L))).filterMap id := by
  rw [Stmt.movedAll_eq, List.map_filterMap, List.filterMap_map]
  rfl

end

namespace Parser

variable {L : Lines} {α β : Type} {μ : α → α} {ν : β → β}

/-- On moved tokens, `q` replies what `p` replies on the tokens themselves, moved. -/
def Moves (L : Lines) (μ : α → α) (p q : Parser α) : Prop :=
  ∀ ts, q (ts.map (·.moved L)) = (p ts).moved L μ

/-! ## Rules

The result may be of any type, so a rule names how results are moved: `μ` for what the first parser returns and `ν` for
what comes of it. -/

/-- A value is returned moved; nothing is read and nothing is said. -/
theorem Moves.pure {a b : α} (h : b = μ a) : Moves L μ (pure a) (pure b) := by
  intro ts
  rw [h]
  rfl

theorem Moves.fail (e : ParseFailure) : Moves L μ (fail e) (fail e) :=
  fun _ => rfl

/-- The second parser gets the moved result and the moved rest, so that it has to do on these what it does on the
others. -/
theorem Moves.bind {p q : Parser α} {f g : α → Parser β} (hp : Moves L μ p q)
    (hf : ∀ a, Moves L ν (f a) (g (μ a))) : Moves L ν (p >>= f) (q >>= g) := by
  intro ts
  have hq := hp ts
  rcases hreply : p ts with ⟨e | a, rest, ds⟩ <;> rw [hreply] at hq
  · rw [bind_error hreply, bind_error hq]
    rfl
  · rw [bind_reply hreply, bind_reply hq, hf a rest, Reply.moved, Reply.moved, List.map_append]

/-- A result without tokens is the same on every line. -/
theorem Moves.andThen {p q : Parser α} {f g : α → Parser β} (hp : Moves L id p q)
    (hf : ∀ a, Moves L ν (f a) (g a)) : Moves L ν (p >>= f) (q >>= g) :=
  hp.bind hf

/-- A result that is changed afterwards may be changed before or after the move. -/
theorem Moves.map {p q : Parser α} {f : α → β} (hp : Moves L μ p q) (h : ∀ a, f (μ a) = ν (f a)) :
    Moves L ν (f <$> p) (f <$> q) :=
  hp.bind fun a => .pure (h a)

/-- The bound on the rounds is the number of tokens, which moving does not change. -/
theorem Moves.sized {p q : Nat → Parser α} (h : ∀ n, Moves L μ (p n) (q n)) : Moves L μ (sized p) (sized q) := by
  intro ts
  rw [Parser.sized, Parser.sized, List.length_map]
  exact h _ ts

/-- A test of a result that has no lines comes out alike on both sides. -/
theorem Moves.ite {c : Prop} [Decidable c] {p q p' q' : Parser α} (hp : Moves L μ p p') (hq : Moves L μ q q') :
    Moves L μ (if c then p else q) (if c then p' else q') := by
  split
  · exact hp
  · exact hq

/-! ## Single tokens

Here is the reason for everything below: a token is asked for its kind, and its line goes nowhere but into complaints.
-/

/-- What is done with the token in front. -/
theorem Moves.look {f g : Token → Parser α} (h : ∀ t, Moves L μ (f t) (g (t.moved L))) :
    Moves L μ (peek >>= f) (peek >>= g) := by
  intro ts
  cases ts with
  | nil => rfl
  | cons t ts =>
    rw [bind_ok (peek_cons t ts), ← h t]
    rfl

/-- The end is told by its kind. -/
theorem moves_atEnd : Moves L id atEnd atEnd :=
  .look fun _ => .pure rfl

/-- A look at the token in front is a look at its kind. -/
theorem moves_check (kind : Kind) : Moves L id (check kind) (check kind) :=
  .look fun _ => .pure rfl

/-- A token is taken for its kind. -/
theorem Moves.accept? {kinds : List Kind} {f g : Option Token → Parser α}
    (hsome : ∀ t, Moves L μ (f (some t)) (g (some (t.moved L)))) (hnone : Moves L μ (f none) (g none)) :
    Moves L μ (accept? kinds >>= f) (accept? kinds >>= g) := by
  intro ts
  cases ts with
  | nil => rfl
  | cons t ts =>
    by_cases ht : t.kind ∈ kinds
    · have ht' : (t.moved L).kind ∈ kinds := ht
      rw [List.map_cons, bind_ok (accept?_pos ht ts), bind_ok (accept?_pos ht' _)]
      exact hsome t ts
    · have ht' : (t.moved L).kind ∉ kinds := ht
      rw [List.map_cons, bind_ok (accept?_neg ht ts), bind_ok (accept?_neg ht' _)]
      exact hnone (t :: ts)

/-- Whether the token in front was taken does not depend on its line. -/
theorem moves_accept (kind : Kind) : Moves L id (accept kind) (accept kind) :=
  .accept? (fun _ => .pure rfl) (.pure rfl)

/-- A complaint is about a token and moves with it. -/
theorem moves_reportOn (t : Token) (cause : Cause) :
    Moves L id (reportOn t cause) (reportOn (t.moved L) cause) :=
  fun _ => rfl

/-- The complaint is about the token in front. -/
theorem moves_report (cause : Cause) : Moves L id (report cause) (report cause) :=
  .look fun t => moves_reportOn t cause

/-- To give up is to complain about the token in front and to leave it there. -/
theorem moves_reject (cause : Cause) : Moves L μ (reject cause) (reject cause) :=
  (moves_report cause).bind fun _ => .fail _

/-- The token that is expected comes back moved; if another one is in front, the complaint is about that one. -/
theorem moves_expect (kind : Kind) (expected : String) :
    Moves L (·.moved L) (expect kind expected) (expect kind expected) :=
  .accept? (fun _ => .pure rfl) (moves_reject _)

/-! ## Repetition

Bounds on rounds are compared with nothing, so these inductions go along the bound and use the rules above for each
round. -/

/-- Round by round; a test that reads no lines ends both loops in the same round. -/
theorem moves_whileM {more : Parser Bool} {item : Parser α} (hmore : Moves L id more more)
    (hitem : Moves L μ item item) (n : Nat) : Moves L (List.map μ) (whileM more item n) (whileM more item n) := by
  induction n with
  | zero => exact .fail _
  | succ n ih => exact hmore.andThen fun _ => .ite (hitem.bind fun _ => ih.bind fun _ => .pure rfl) (.pure rfl)

/-- Round by round. The complaint about too many items is at the token in front, and the count of items has no line. -/
theorem moves_commaSeparated {item : Parser α} (hitem : Moves L μ item item) (tooMany : Cause) (n count : Nat) :
    Moves L (List.map μ) (commaSeparated tooMany item n count) (commaSeparated tooMany item n count) := by
  induction n generalizing count with
  | zero => exact .fail _
  | succ n ih =>
    rw [commaSeparated_succ]
    have hcomplaint : Moves L id (if maxArguments ≤ count then report tooMany else Pure.pure ())
        (if maxArguments ≤ count then report tooMany else Pure.pure ()) := .ite (moves_report tooMany) (.pure rfl)
    exact hcomplaint.andThen fun _ => hitem.bind fun _ => (moves_accept _).andThen fun _ =>
      .ite ((ih _).bind fun _ => .pure rfl) (.pure rfl)

/-- An empty list is told by the parenthesis in front. -/
theorem moves_untilParen {item : Parser α} (hitem : Moves L μ item item) (tooMany : Cause) :
    Moves L (List.map μ) (untilParen tooMany item) (untilParen tooMany item) :=
  (moves_check _).andThen fun _ => .ite (.pure rfl) (.sized fun n => moves_commaSeparated hitem tooMany n 0)

/-! ## Expressions

One rule for each level of the grammar, from the tightest outwards. `self` is the parser for whole expressions, which is
assumed to move and is tied back at the end, where the induction on the nesting takes place. -/

section Expressions

variable {self : Parser SourceExpr} (hself : Moves L (·.moved L) self self)
include hself

/-- The kind of the token in front chooses the form, and of the token itself the literal alone goes into the tree. -/
theorem moves_primary : Moves L (·.moved L) (primary self) (primary self) := by
  have htake : ∀ e : SourceExpr, Moves L (·.moved L) (primary.take e) (primary.take (e.moved L)) := by
    intro e ts
    rw [primary.take, primary.take, ← List.map_drop]
    rfl
  refine .look fun t => ?_
  rw [Token.kind_moved]
  cases t.kind with
  | «false» => exact htake (.literal (.bool false))
  | «true» => exact htake (.literal (.bool true))
  | nil => exact htake (.literal .nil)
  | number => exact htake (.literal t.literal)
  | string => exact htake (.literal t.literal)
  | this => exact htake (.this (.bare t))
  | identifier => exact htake (.variable (.bare t))
  | «super» =>
    exact (moves_expect _ _).bind fun _ => (moves_expect _ _).bind fun _ => (moves_expect _ _).bind fun _ => .pure rfl
  | leftParen =>
    exact (moves_expect _ _).bind fun _ => hself.bind fun _ => (moves_expect _ _).bind fun _ => .pure rfl
  | _ => exact moves_reject _

/-- Calls and property accesses wrap the tree that has been read so far, which is moved already. -/
theorem moves_callTail (n : Nat) (e : SourceExpr) :
    Moves L (·.moved L) (callTail self n e) (callTail self n (e.moved L)) := by
  induction n generalizing e with
  | zero => exact .fail _
  | succ n ih =>
    refine (moves_accept _).andThen fun _ => .ite ?_ ?_
    · refine (moves_untilParen hself _).bind fun arguments => (moves_expect _ _).bind fun paren => ?_
      rw [← Expr.moved_all_eq]
      exact ih (.call e paren arguments)
    · exact (moves_accept _).andThen fun _ => .ite ((moves_expect _ _).bind fun name => ih (.get e name)) (.pure rfl)

/-- A call begins with a primary expression. -/
theorem moves_call : Moves L (·.moved L) (call self) (call self) :=
  (moves_primary hself).bind fun e => .sized fun n => moves_callTail hself n e

omit hself in
/-- The operators in front of an operand are tokens that are kept, so they move. -/
theorem moves_unaryOperators (n : Nat) :
    Moves L (List.map (·.moved L)) (unaryOperators n) (unaryOperators n) := by
  induction n with
  | zero => exact .fail _
  | succ n ih => exact .accept? (fun _ => ih.bind fun _ => .pure rfl) (.pure rfl)

/-- The operators come back as a list, around the operand that was read behind them. -/
theorem moves_unary : Moves L (·.moved L) (unary self) (unary self) :=
  (Moves.sized moves_unaryOperators).bind fun operators => (moves_call hself).bind fun operand =>
    .pure (Expr.moved_foldr_unary L operators operand).symm

section Operators

variable {operand : Parser SourceExpr} {build : SourceExpr → Token → SourceExpr → SourceExpr}
  (hoperand : Moves L (·.moved L) operand operand)
  (hbuild : ∀ left operator right,
    (build left operator right).moved L = build (left.moved L) (operator.moved L) (right.moved L))
include hoperand hbuild

omit hself in
/-- One round for each operator of the level. `build` stands for the two ways to join operands, both of which keep the
operator's token. -/
theorem moves_operatorTail (kinds : List Kind) (n : Nat) (left : SourceExpr) :
    Moves L (·.moved L) (operatorTail kinds build operand n left)
      (operatorTail kinds build operand n (left.moved L)) := by
  induction n generalizing left with
  | zero => exact .fail _
  | succ n ih =>
    refine .accept? (fun operator => hoperand.bind fun right => ?_) (.pure rfl)
    rw [← hbuild]
    exact ih _

omit hself in
/-- A level begins with one operand, which is all of it if no operator follows. -/
theorem moves_leftAssociative (kinds : List Kind) :
    Moves L (·.moved L) (leftAssociative kinds build operand) (leftAssociative kinds build operand) :=
  hoperand.bind fun left => .sized fun n => moves_operatorTail hoperand hbuild kinds n left

end Operators

omit hself in
/-- The levels whose operators make binary expressions. -/
theorem moves_binary {operand : Parser SourceExpr} (hoperand : Moves L (·.moved L) operand operand)
    (kinds : List Kind) :
    Moves L (·.moved L) (leftAssociative kinds .binary operand) (leftAssociative kinds .binary operand) := by
  refine moves_leftAssociative hoperand ?_ kinds
  exact fun _ _ _ => rfl

omit hself in
/-- The two levels whose operators make logical expressions. -/
theorem moves_logical {operand : Parser SourceExpr} (hoperand : Moves L (·.moved L) operand operand)
    (kinds : List Kind) :
    Moves L (·.moved L) (leftAssociative kinds .logical operand) (leftAssociative kinds .logical operand) := by
  refine moves_leftAssociative hoperand ?_ kinds
  exact fun _ _ _ => rfl

/-- The loosest level below assignment, put together from all the others. -/
theorem moves_disjunction : Moves L (·.moved L) (disjunction self) (disjunction self) := by
  have hfactor : Moves L (·.moved L) (factor self) (factor self) := moves_binary (moves_unary hself) _
  have hterm : Moves L (·.moved L) (term self) (term self) := moves_binary hfactor _
  have hcomparison : Moves L (·.moved L) (comparison self) (comparison self) := moves_binary hterm _
  have hequality : Moves L (·.moved L) (equality self) (equality self) := moves_binary hcomparison _
  have hconjunction : Moves L (·.moved L) (conjunction self) (conjunction self) := moves_logical hequality _
  exact moves_logical hconjunction _

/-- The form of the left side decides what is assigned to, and forms have no lines. If it is no target, the complaint is
about the equals sign. -/
theorem moves_assignment : Moves L (·.moved L) (assignment self) (assignment self) := by
  refine (moves_disjunction hself).bind fun target => .accept? (fun equals => ?_) (.pure rfl)
  refine hself.bind fun value => ?_
  cases target with
  | «variable» | get => exact .pure rfl
  | _ => exact (moves_reportOn equals _).andThen fun _ => .pure rfl

omit hself in
/-- The knot of the levels: expressions nested at most `n` deep, by induction on `n`. -/
theorem moves_nestedExpression (n : Nat) : Moves L (·.moved L) (nestedExpression n) (nestedExpression n) := by
  induction n with
  | zero => exact Moves.fail (α := SourceExpr) _
  | succ n ih => exact moves_assignment ih

omit hself in
/-- Expressions nested as deep as there are tokens. -/
theorem moves_expression : Moves L (·.moved L) expression expression :=
  .sized moves_nestedExpression

end Expressions

/-! ## Recovery

To recover is to compare kinds as well: of the token that was passed last and of the one in front. -/

/-- The search for the next statement stops at the same place. The token that was passed is an argument of it, so that
the rule for parsers does not apply and the induction is on the tokens. -/
theorem nextStatement_moved (previous : Token) (ts : List Token) :
    nextStatement (previous.moved L) (ts.map (·.moved L)) = (nextStatement previous ts).moved L id := by
  induction ts generalizing previous with
  | nil => rfl
  | cons t ts ih =>
    rw [List.map_cons, nextStatement, nextStatement, Token.kind_moved, Token.kind_moved]
    split
    · rfl
    · exact ih t

/-- The offending token is passed, unless it is the end. -/
theorem moves_synchronize : Moves L id synchronize synchronize := by
  intro ts
  cases ts with
  | nil => rfl
  | cons t ts =>
    rw [List.map_cons, synchronize, synchronize, Token.kind_moved]
    split
    · rfl
    · exact nextStatement_moved t ts

/-- What is passed over is passed over on every line. -/
theorem Moves.orSynchronize {p q : Parser SourceStmt} (hp : Moves L (·.moved L) p q) :
    Moves L (Option.map (·.moved L)) (orSynchronize p) (orSynchronize q) := by
  intro ts
  have hq := hp ts
  rcases hreply : p ts with ⟨(_ | _ | _) | s, rest, ds⟩ <;>
    simp only [hreply, Reply.moved, Except.map] at hq <;>
    simp only [Parser.orSynchronize, hreply, hq]
  case mismatch =>
    rw [moves_synchronize rest]
    rcases synchronize rest with ⟨e | a, rest', ds'⟩ <;> rfl
  all_goals rfl

/-! ## Statements and declarations

Each production is composed from the rules as it is composed from its parts. What is nested is assumed to move, again
until the knot is tied. -/

/-- Whether a block goes on is told by the kind in front. -/
theorem moves_inside : Moves L id block.inside block.inside :=
  .look fun _ => .pure rfl

/-- The name is kept and moves; the word `var` and the semicolon are not kept. -/
theorem moves_varDeclaration : Moves L (·.moved L) varDeclaration varDeclaration :=
  (moves_expect _ _).bind fun _ => (moves_accept _).andThen fun _ =>
    .ite (moves_expression.bind fun _ => (moves_expect _ _).bind fun _ => .pure rfl)
      ((moves_expect _ _).bind fun _ => .pure rfl)

/-- Nothing but the expression is kept. -/
theorem moves_expressionStatement : Moves L (·.moved L) expressionStatement expressionStatement :=
  moves_expression.bind fun _ => (moves_expect _ _).bind fun _ => .pure rfl

/-- An expression that may be missing: the token that says so is only looked at. -/
theorem moves_expressionUnless (kind : Kind) :
    Moves L (Option.map (·.moved L)) (expressionUnless kind) (expressionUnless kind) :=
  (moves_check _).andThen fun _ => .ite (.pure rfl) (moves_expression.bind fun _ => .pure rfl)

/-- Either of the two forms with a semicolon, or the semicolon alone. -/
theorem moves_loopInitializer : Moves L (Option.map (·.moved L)) loopInitializer loopInitializer :=
  (moves_accept _).andThen fun _ => .ite (.pure rfl) <| (moves_accept _).andThen fun _ =>
    .ite (moves_varDeclaration.bind fun _ => .pure rfl) (moves_expressionStatement.bind fun _ => .pure rfl)

/-- The tree that the clauses of a loop are made into has no tokens of its own. -/
theorem forBlock_moved (initializer : Option SourceStmt) (condition increment : Option SourceExpr)
    (body : SourceStmt) :
    forBlock (initializer.map (·.moved L)) (condition.map (·.moved L)) (increment.map (·.moved L)) (body.moved L)
      = (forBlock initializer condition increment body).moved L := by
  rw [forBlock_eq_block, forBlock_eq_block, ForLoop.block_eq, ForLoop.block_eq, forLoop_moved]

section Nested

variable {statement : Parser SourceStmt} {declaration : Parser (Option SourceStmt)}
  (hstatement : Moves L (·.moved L) statement statement)
  (hdeclaration : Moves L (Option.map (·.moved L)) declaration declaration)

include hdeclaration in
/-- Broken declarations are dropped from the list, and moving drops no others. -/
theorem moves_block : Moves L (Stmt.movedAll L) (block declaration) (block declaration) :=
  (Moves.sized fun n => moves_whileM moves_inside hdeclaration n).bind fun found => (moves_expect _ _).bind fun _ =>
    .pure (Stmt.movedAll_filterMap L found).symm

include hdeclaration in
/-- The parameters come back as a list of tokens that move one by one. -/
theorem moves_function (what : String) :
    Moves L (·.moved L) (function declaration what) (function declaration what) :=
  (moves_expect _ _).bind fun _ => (moves_expect _ _).bind fun _ =>
    (moves_untilParen (moves_expect _ _) _).bind fun _ => (moves_expect _ _).bind fun _ =>
      (moves_expect _ _).bind fun _ => (moves_block hdeclaration).bind fun _ => .pure rfl

include hdeclaration in
/-- With a superclass or without, what is read behind the name is the same. -/
theorem moves_classDeclaration :
    Moves L (·.moved L) (classDeclaration declaration) (classDeclaration declaration) := by
  have hbody : ∀ (name : Token) (superclass : Option (Reference Unit)), Moves L (·.moved L)
      (do
        let _ ← expect .leftBrace "'\x7b' before class body"
        let methods ← sized (whileM block.inside (function declaration "method"))
        let _ ← expect .rightBrace "'\x7d' after class body"
        return Stmt.class name superclass methods)
      (do
        let _ ← expect .leftBrace "'\x7b' before class body"
        let methods ← sized (whileM block.inside (function declaration "method"))
        let _ ← expect .rightBrace "'\x7d' after class body"
        return Stmt.class (name.moved L) (superclass.map (·.moved L)) methods) := by
    refine fun name superclass => (moves_expect _ _).bind fun _ =>
      (Moves.sized fun n => moves_whileM moves_inside (moves_function hdeclaration _) n).bind fun methods =>
        (moves_expect _ _).bind fun _ => .pure ?_
    rw [Stmt.moved, FunDecl.movedAll_eq]
  exact (moves_expect _ _).bind fun name => (moves_accept _).andThen fun _ =>
    .ite ((moves_expect _ _).bind fun heir => hbody name (some (.bare heir))) (hbody name none)

include hstatement in
/-- The clauses one after the other, and then the tree that is made of them. -/
theorem moves_forStatement : Moves L (·.moved L) (forStatement statement) (forStatement statement) :=
  (moves_expect _ _).bind fun _ => moves_loopInitializer.bind fun initializer =>
    (moves_expressionUnless _).bind fun condition => (moves_expect _ _).bind fun _ =>
      (moves_expressionUnless _).bind fun increment => (moves_expect _ _).bind fun _ =>
        hstatement.bind fun body => .pure (forBlock_moved initializer condition increment body)

include hstatement in
/-- Whether there is an `else` is told by its kind. -/
theorem moves_ifStatement : Moves L (·.moved L) (ifStatement statement) (ifStatement statement) :=
  (moves_expect _ _).bind fun _ => moves_expression.bind fun _ => (moves_expect _ _).bind fun _ =>
    hstatement.bind fun _ => (moves_accept _).andThen fun _ =>
      .ite (hstatement.bind fun _ => .pure rfl) (.pure rfl)

/-- The keyword is not kept. -/
theorem moves_printStatement : Moves L (·.moved L) printStatement printStatement :=
  moves_expression.bind fun _ => (moves_expect _ _).bind fun _ => .pure rfl

/-- The keyword is kept, for complaints about the statement. -/
theorem moves_returnStatement (keyword : Token) :
    Moves L (·.moved L) (returnStatement keyword) (returnStatement (keyword.moved L)) :=
  (moves_expressionUnless _).bind fun _ => (moves_expect _ _).bind fun _ => .pure rfl

include hstatement in
/-- Neither the keyword nor the parentheses are kept. -/
theorem moves_whileStatement : Moves L (·.moved L) (whileStatement statement) (whileStatement statement) :=
  (moves_expect _ _).bind fun _ => moves_expression.bind fun _ => (moves_expect _ _).bind fun _ =>
    hstatement.bind fun _ => .pure rfl

include hstatement hdeclaration

/-- The keyword in front chooses the production. -/
theorem moves_statementWith :
    Moves L (·.moved L) (statementWith ⟨statement, declaration⟩) (statementWith ⟨statement, declaration⟩) := by
  refine .accept? (fun t => ?_) moves_expressionStatement
  dsimp only
  rw [Token.kind_moved]
  cases t.kind with
  | «for» => exact moves_forStatement hstatement
  | «if» => exact moves_ifStatement hstatement
  | print => exact moves_printStatement
  | «return» => exact moves_returnStatement t
  | «while» => exact moves_whileStatement hstatement
  | _ => exact (moves_block hdeclaration).map fun _ => rfl

/-- The declarations come first; whatever begins with no word of theirs is a statement. -/
theorem moves_declarationWith :
    Moves L (·.moved L) (declarationWith ⟨statement, declaration⟩) (declarationWith ⟨statement, declaration⟩) :=
  (moves_accept _).andThen fun _ => .ite (moves_classDeclaration hdeclaration) <|
    (moves_accept _).andThen fun _ => .ite ((moves_function hdeclaration _).map fun _ => rfl) <|
      (moves_accept _).andThen fun _ => .ite moves_varDeclaration (moves_statementWith hstatement hdeclaration)

end Nested

/-- Statements and declarations of every depth of nesting. -/
theorem moves_nested (n : Nat) : Moves L (·.moved L) (nestedStatement n) (nestedStatement n) ∧
    Moves L (Option.map (·.moved L)) (nestedDeclaration n) (nestedDeclaration n) := by
  induction n with
  | zero => exact ⟨Moves.fail (α := SourceStmt) _, Moves.fail (α := Option SourceStmt) _⟩
  | succ n ih =>
    exact ⟨moves_statementWith ih.1 ih.2, Moves.orSynchronize (moves_declarationWith ih.1 ih.2)⟩

/-- The declarations up to the end token; those that were broken are dropped. -/
theorem moves_program : Moves L (Stmt.movedAll L) program program := by
  have hmore : Moves L id (do return !(← atEnd)) (do return !(← atEnd)) := moves_atEnd.andThen fun _ => .pure rfl
  have hdeclaration : Moves L (Option.map (·.moved L)) declaration declaration := .sized fun n => (moves_nested n).2
  exact (Moves.sized fun n => moves_whileM hmore hdeclaration n).bind fun found =>
    .pure (Stmt.movedAll_filterMap L found).symm

end Parser

/-! ## Whole programs

A program on other lines is parsed to the same program on those lines, and the complaints move with their tokens. -/

/-- Moved tokens are parsed to the moved program, and the same is complained about on other lines. -/
theorem parse_moved (L : Lines) (tokens : List Token) :
    parse (tokens.map (·.moved L)) = (parse tokens).map (·.moved L) := by
  rw [parse, parse, Parser.moves_program tokens]
  rcases Parser.program tokens with ⟨e | program, rest, ds⟩ <;> rfl

end LoxLang
