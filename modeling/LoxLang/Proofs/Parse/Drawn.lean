import LoxLang.Proofs.Parse.Complaints

/-!
# Where the tokens of a tree come from

Every token of a tree that a parser builds is one of the tokens it has read, and stands where its kind belongs; every
literal is the one of such a token, or a word's. This holds of broken lists too, of which only some declarations
remain.

* **`Parser.Draws`** — a parser whose results are made out of tokens with a property, with a rule for each way to
  compose parsers.
* **`parse_drawn`** — so it is with programs.
-/

namespace LoxLang

variable {ρ : Type}

/-! ## Trees made out of tokens with a property

The property `P` is left open. With `P` as being one of the tokens read, a tree has no token of its own invention; with
`P` as having come from a scan, its names are spelled as names are. -/

/-- A token of one of these kinds with a further property. -/
def Token.Among (P : Token → Prop) (kinds : List Kind) (t : Token) : Prop :=
  t.kind ∈ kinds ∧ P t

/-- The kinds of operators between operands that are both evaluated. -/
def Kind.binary : List Kind :=
  [.bangEqual, .equalEqual, .greater, .greaterEqual, .less, .lessEqual, .minus, .plus, .slash, .star]

/-- What a word denotes, or the literal of a number or a string. -/
inductive Literal.Drawn (P : Token → Prop) : Literal → Prop where
  | nil : Drawn P .nil
  | bool (b : Bool) : Drawn P (.bool b)
  | token {t : Token} (h : t.Among P [.number, .string]) : Drawn P t.literal

/-- An expression of which every token has the property. -/
def Expr.Drawn (P : Token → Prop) : Expr ρ → Prop
  | .assign target value => target.name.Is P .identifier ∧ value.Drawn P
  | .binary left operator right => left.Drawn P ∧ operator.Among P Kind.binary ∧ right.Drawn P
  | .call callee paren arguments => callee.Drawn P ∧ paren.Is P .rightParen ∧ all arguments
  | .get object name => object.Drawn P ∧ name.Is P .identifier
  | .grouping inner => inner.Drawn P
  | .literal value => value.Drawn P
  | .logical left operator right => left.Drawn P ∧ operator.Among P [.or, .and] ∧ right.Drawn P
  | .set object name value => object.Drawn P ∧ name.Is P .identifier ∧ value.Drawn P
  | .super keyword method => keyword.name.Is P .super ∧ method.Is P .identifier
  | .this keyword => keyword.name.Is P .this
  | .unary operator right => operator.Among P [.bang, .minus] ∧ right.Drawn P
  | .variable reference => reference.name.Is P .identifier
  | .unknown => False
where
  all : List (Expr ρ) → Prop
    | [] => True
    | e :: es => e.Drawn P ∧ all es

mutual

/-- A statement of which every token has the property. -/
def Stmt.Drawn (P : Token → Prop) : Stmt ρ → Prop
  | .block body => Stmt.AllDrawn P body
  | .expression value => value.Drawn P
  | .function declaration => declaration.Drawn P
  | .class name superclass methods =>
    name.Is P .identifier ∧ (∀ r ∈ superclass, r.name.Is P .identifier) ∧ FunDecl.AllDrawn P methods
  | .if condition thenBranch elseBranch =>
    condition.Drawn P ∧ thenBranch.Drawn P ∧
      (match elseBranch with
        | some s => s.Drawn P
        | none => True)
  | .print value => value.Drawn P
  | .return keyword value => keyword.Is P .return ∧ ∀ e ∈ value, e.Drawn P
  | .var name initializer => name.Is P .identifier ∧ ∀ e ∈ initializer, e.Drawn P
  | .while condition body => condition.Drawn P ∧ body.Drawn P
  | .unknown => False

/-- Statements of which every token has the property. -/
def Stmt.AllDrawn (P : Token → Prop) : List (Stmt ρ) → Prop
  | [] => True
  | s :: ss => s.Drawn P ∧ Stmt.AllDrawn P ss

/-- A function of which every token has the property. -/
def FunDecl.Drawn (P : Token → Prop) : FunDecl ρ → Prop
  | ⟨name, params, body⟩ =>
    name.Is P .identifier ∧ (∀ p ∈ params, p.Is P .identifier) ∧ Stmt.AllDrawn P body

/-- Functions of which every token has the property. -/
def FunDecl.AllDrawn (P : Token → Prop) : List (FunDecl ρ) → Prop
  | [] => True
  | d :: ds => d.Drawn P ∧ FunDecl.AllDrawn P ds

end

variable {P : Token → Prop}

/-- The arguments of a call, one by one. -/
theorem Expr.drawn_all_iff {es : List (Expr ρ)} : Expr.Drawn.all P es ↔ ∀ e ∈ es, e.Drawn P := by
  induction es with
  | nil => simp [Expr.Drawn.all]
  | cons e es ih => simp [Expr.Drawn.all, ih]

/-- The statements of a block, one by one. -/
theorem Stmt.allDrawn_iff {ss : List (Stmt ρ)} : Stmt.AllDrawn P ss ↔ ∀ s ∈ ss, s.Drawn P := by
  induction ss with
  | nil => simp [Stmt.AllDrawn]
  | cons s ss ih => simp [Stmt.AllDrawn, ih]

/-- The methods of a class, one by one. -/
theorem FunDecl.allDrawn_iff {ds : List (FunDecl ρ)} : FunDecl.AllDrawn P ds ↔ ∀ d ∈ ds, d.Drawn P := by
  induction ds with
  | nil => simp [FunDecl.AllDrawn]
  | cons d ds ih => simp [FunDecl.AllDrawn, ih]

theorem Stmt.drawn_if {condition : Expr ρ} {thenBranch : Stmt ρ} {elseBranch : Option (Stmt ρ)} :
    (Stmt.if condition thenBranch elseBranch).Drawn P ↔
      condition.Drawn P ∧ thenBranch.Drawn P ∧ ∀ s ∈ elseBranch, s.Drawn P := by
  cases elseBranch <;> simp [Stmt.Drawn]

/-- Operators in front of an operand. -/
theorem Expr.drawn_foldr_unary {operators : List Token} {operand : Expr ρ}
    (hoperators : ∀ t ∈ operators, t.Among P [.bang, .minus]) (hoperand : operand.Drawn P) :
    (operators.foldr .unary operand).Drawn P := by
  induction operators with
  | nil => exact hoperand
  | cons t ts ih =>
    exact ⟨hoperators t List.mem_cons_self, ih fun u hu => hoperators u (List.mem_cons_of_mem t hu)⟩

namespace Parser

variable {α β : Type} {Q : α → Prop} {R : β → Prop}

/-- On tokens with the property `P`, the parser leaves tokens with that property, and `Q` holds of its results. -/
def Draws (P : Token → Prop) (p : Parser α) (Q : α → Prop) : Prop :=
  ∀ ts, (∀ t ∈ ts, P t) → (∀ t ∈ (p ts).rest, P t) ∧ ∀ a, (p ts).result = .ok a → Q a

/-! ## Rules

Unlike other triples about the parser this one speaks about results, so the rule for succession hands on what the first
parser has found out about its own. -/

/-- What is known of a result may be weakened. -/
theorem Draws.mono {Q' : α → Prop} {p : Parser α} (hp : Draws P p Q) (h : ∀ a, Q a → Q' a) : Draws P p Q' :=
  fun ts hts => ⟨(hp ts hts).1, fun a ha => h a ((hp ts hts).2 a ha)⟩

/-- A value that is as it should be may be returned. -/
theorem Draws.pure {a : α} (h : Q a) : Draws P (pure a) Q := by
  rintro ts hts
  refine ⟨hts, fun b hb => ?_⟩
  obtain rfl : a = b := Except.ok.inj hb
  exact h

/-- A parser that fails has no result to speak of. -/
theorem Draws.fail (e : ParseFailure) : Draws P (fail e) Q :=
  fun _ hts => ⟨hts, fun _ h => nomatch h⟩

/-- The second parser may use what is known about the result of the first. -/
theorem Draws.bind {p : Parser α} {f : α → Parser β} (hp : Draws P p Q) (hf : ∀ a, Q a → Draws P (f a) R) :
    Draws P (p >>= f) R := by
  intro ts hts
  obtain ⟨hrest, hresult⟩ := hp ts hts
  rcases hreply : p ts with ⟨e | a, rest, ds⟩ <;> rw [hreply] at hrest hresult
  · rw [bind_error hreply]
    exact ⟨hrest, fun _ h => nomatch h⟩
  · rw [bind_reply hreply]
    -- the second parser starts on what the first has left
    exact hf a (hresult a rfl) rest hrest

/-- A node is made of parts that are drawn from the tokens. -/
theorem Draws.map {p : Parser α} (g : α → β) (hp : Draws P p Q) (h : ∀ a, Q a → R (g a)) :
    Draws P (g <$> p) R :=
  hp.bind fun a ha => .pure (h a ha)

/-- It is asked for every bound on the rounds. -/
theorem Draws.sized {p : Nat → Parser α} (h : ∀ n, Draws P (p n) Q) : Draws P (sized p) Q :=
  fun ts hts => h (ts.length + 1) ts hts

/-- Both branches are asked, since the test is not known here. -/
theorem Draws.ite {c : Prop} [Decidable c] {p q : Parser α} (hp : Draws P p Q) (hq : Draws P q Q) :
    Draws P (if c then p else q) Q := by
  split
  · exact hp
  · exact hq

/-! ## Single tokens

This is the only place where tokens come in: one is in the result if it was in front, and then its kind has been seen.
-/

/-- What is done with the token in front. -/
theorem Draws.look {f : Token → Parser α} (hf : ∀ t, P t → Draws P (f t) Q) : Draws P (peek >>= f) Q := by
  intro ts hts
  cases ts with
  | nil => exact ⟨hts, fun _ h => nomatch h⟩
  | cons t ts =>
    rw [bind_ok (peek_cons t ts)]
    exact hf t (hts t List.mem_cons_self) _ hts

theorem draws_check (kind : Kind) : Draws P (check kind) fun _ => True :=
  .look fun _ _ => .pure trivial

/-- A token that is taken has the property and one of the kinds. -/
theorem Draws.accept? {kinds : List Kind} {f : Option Token → Parser α}
    (hsome : ∀ t : Token, t.Among P kinds → Draws P (f (some t)) Q) (hnone : Draws P (f none) Q) :
    Draws P (accept? kinds >>= f) Q := by
  intro ts hts
  cases ts with
  | nil => exact ⟨hts, fun _ h => nomatch h⟩
  | cons t ts =>
    by_cases ht : t.kind ∈ kinds
    · rw [bind_ok (accept?_pos ht ts)]
      exact hsome t ⟨ht, hts t List.mem_cons_self⟩ ts fun u hu => hts u (List.mem_cons_of_mem t hu)
    · rw [bind_ok (accept?_neg ht ts)]
      exact hnone _ hts

/-- A token that is skipped gives nothing to the tree. -/
theorem draws_accept (kind : Kind) : Draws P (accept kind) fun _ => True :=
  .accept? (fun _ _ => .pure trivial) (.pure trivial)

/-- Complaints are no part of a tree. -/
theorem draws_reportOn (t : Token) (cause : Cause) : Draws P (reportOn t cause) fun _ => True :=
  fun _ hts => ⟨hts, fun _ _ => trivial⟩

/-- Complaints are no part of a tree. -/
theorem draws_report (cause : Cause) : Draws P (report cause) fun _ => True :=
  .look fun t _ => draws_reportOn t cause

theorem draws_reject (cause : Cause) : Draws P (reject cause) Q :=
  (draws_report cause).bind fun _ _ => .fail _

/-- The token that is taken is one of those read, and of the kind expected. -/
theorem draws_expect (kind : Kind) (expected : String) : Draws P (expect kind expected) (Token.Is P kind) :=
  .accept? (fun _ ht => .pure ⟨List.mem_singleton.mp ht.1, ht.2⟩) (draws_reject _)

/-! ## Repetition

What holds of each item holds of all of them. -/

/-- Round by round, whatever the test says. -/
theorem draws_whileM {more : Parser Bool} {item : Parser α} (hmore : Draws P more fun _ => True)
    (hitem : Draws P item Q) (n : Nat) : Draws P (whileM more item n) fun as => ∀ a ∈ as, Q a := by
  induction n with
  | zero => exact .fail _
  | succ n ih =>
    refine hmore.bind fun go _ => ?_
    cases go with
    | false => exact .pure (List.forall_mem_nil _)
    | true => exact hitem.bind fun a ha => ih.bind fun as has => .pure (List.forall_mem_cons.mpr ⟨ha, has⟩)

/-- Item by item; the commas are dropped. -/
theorem draws_commaSeparated {item : Parser α} (hitem : Draws P item Q) (tooMany : Cause) (n count : Nat) :
    Draws P (commaSeparated tooMany item n count) fun as => ∀ a ∈ as, Q a := by
  induction n generalizing count with
  | zero => exact .fail _
  | succ n ih =>
    rw [commaSeparated_succ]
    have hcomplaint : Draws P (if maxArguments ≤ count then report tooMany else Pure.pure ()) fun _ => True :=
      .ite (draws_report tooMany) (.pure trivial)
    refine hcomplaint.bind fun _ _ => hitem.bind fun a ha => (draws_accept _).bind fun _ _ => .ite ?_ ?_
    · exact (ih _).bind fun as has => .pure (List.forall_mem_cons.mpr ⟨ha, has⟩)
    · exact .pure (List.forall_mem_singleton.mpr ha)

/-- An empty list has no items. -/
theorem draws_untilParen {item : Parser α} (hitem : Draws P item Q) (tooMany : Cause) :
    Draws P (untilParen tooMany item) fun as => ∀ a ∈ as, Q a :=
  (draws_check _).bind fun _ _ =>
    .ite (.pure (List.forall_mem_nil _)) (.sized fun n => draws_commaSeparated hitem tooMany n 0)

/-! ## Expressions

From the tightest level outwards, as in the parser. `self` is assumed to build expressions drawn from the tokens. -/

section Expressions

variable {self : Parser SourceExpr} (hself : Draws P self (Expr.Drawn P))
include hself

/-- Literals are taken from their tokens, names and keywords are tokens themselves, and a group holds an expression. -/
theorem draws_primary : Draws P (primary self) (Expr.Drawn P) := by
  have htake : ∀ e : SourceExpr, e.Drawn P → Draws P (primary.take e) (Expr.Drawn P) := fun e he ts hts =>
    ⟨fun t ht => hts t (List.mem_of_mem_drop ht), fun a ha => Except.ok.inj ha ▸ he⟩
  refine .look fun t ht => ?_
  cases hkind : t.kind with
  | «false» => exact htake _ (.bool false)
  | «true» => exact htake _ (.bool true)
  | nil => exact htake _ .nil
  | number => exact htake _ (.token ⟨by simp [hkind], ht⟩)
  | string => exact htake _ (.token ⟨by simp [hkind], ht⟩)
  | this => exact htake _ ⟨hkind, ht⟩
  | identifier => exact htake _ ⟨hkind, ht⟩
  | «super» =>
    exact (draws_expect _ _).bind fun keyword hkeyword => (draws_expect _ _).bind fun _ _ =>
      (draws_expect _ _).bind fun method hmethod => .pure ⟨hkeyword, hmethod⟩
  | leftParen =>
    exact (draws_expect _ _).bind fun _ _ => hself.bind fun inner hinner =>
      (draws_expect _ _).bind fun _ _ => .pure hinner
  | _ => exact draws_reject _

/-- The expression that is called is handed on from round to round. -/
theorem draws_callTail (n : Nat) {e : SourceExpr} (he : e.Drawn P) :
    Draws P (callTail self n e) (Expr.Drawn P) := by
  induction n generalizing e with
  | zero => exact .fail _
  | succ n ih =>
    refine (draws_accept _).bind fun _ _ => .ite ?_ ?_
    · exact (draws_untilParen hself _).bind fun arguments harguments => (draws_expect _ _).bind fun paren hparen =>
        ih ⟨he, hparen, Expr.drawn_all_iff.mpr harguments⟩
    · exact (draws_accept _).bind fun _ _ =>
        .ite ((draws_expect _ _).bind fun name hname => ih ⟨he, hname⟩) (.pure he)

/-- An operand and what is applied to it. -/
theorem draws_call : Draws P (call self) (Expr.Drawn P) :=
  (draws_primary hself).bind fun _ he => .sized fun n => draws_callTail hself n he

omit hself in
/-- Only the two prefix operators are collected. -/
theorem draws_unaryOperators (n : Nat) :
    Draws P (unaryOperators n) fun operators => ∀ t ∈ operators, t.Among P [.bang, .minus] := by
  induction n with
  | zero => exact .fail _
  | succ n ih =>
    exact .accept? (fun t ht => ih.bind fun ts hts => .pure (List.forall_mem_cons.mpr ⟨ht, hts⟩))
      (.pure (List.forall_mem_nil _))

/-- The operators are put around the operand. -/
theorem draws_unary : Draws P (unary self) (Expr.Drawn P) :=
  (Draws.sized draws_unaryOperators).bind fun _ hoperators => (draws_call hself).bind fun _ hoperand =>
    .pure (Expr.drawn_foldr_unary hoperators hoperand)

section Operators

variable {operand : Parser SourceExpr} {kinds : List Kind} {build : SourceExpr → Token → SourceExpr → SourceExpr}
  (hoperand : Draws P operand (Expr.Drawn P))
  (hbuild : ∀ left operator right, left.Drawn P → operator.Among P kinds → right.Drawn P →
    (build left operator right).Drawn P)
include hoperand hbuild

omit hself in
/-- The left operand is handed on from round to round. -/
theorem draws_operatorTail (n : Nat) {left : SourceExpr} (hleft : left.Drawn P) :
    Draws P (operatorTail kinds build operand n left) (Expr.Drawn P) := by
  induction n generalizing left with
  | zero => exact .fail _
  | succ n ih =>
    exact .accept? (fun operator hoperator => hoperand.bind fun right hright =>
      ih (hbuild left operator right hleft hoperator hright)) (.pure hleft)

omit hself in
/-- A level of binary operators is drawn if the level below it is and if its own nodes are. -/
theorem draws_leftAssociative : Draws P (leftAssociative kinds build operand) (Expr.Drawn P) :=
  hoperand.bind fun _ hleft => .sized fun n => draws_operatorTail hoperand hbuild n hleft

end Operators

omit hself in
/-- Operands joined by operators that are both evaluated. -/
theorem draws_binary {operand : Parser SourceExpr} {kinds : List Kind} (hoperand : Draws P operand (Expr.Drawn P))
    (hkinds : kinds ⊆ Kind.binary) : Draws P (leftAssociative kinds .binary operand) (Expr.Drawn P) :=
  draws_leftAssociative hoperand fun _ _ _ hleft hoperator hright =>
    ⟨hleft, ⟨hkinds hoperator.1, hoperator.2⟩, hright⟩

omit hself in
theorem draws_logical {operand : Parser SourceExpr} {kinds : List Kind} (hoperand : Draws P operand (Expr.Drawn P))
    (hkinds : kinds ⊆ [.or, .and]) : Draws P (leftAssociative kinds .logical operand) (Expr.Drawn P) :=
  draws_leftAssociative hoperand fun _ _ _ hleft hoperator hright =>
    ⟨hleft, ⟨hkinds hoperator.1, hoperator.2⟩, hright⟩

/-- All the levels of binary operators, each with its own kinds. -/
theorem draws_disjunction : Draws P (disjunction self) (Expr.Drawn P) := by
  have hfactor : Draws P (factor self) (Expr.Drawn P) := draws_binary (draws_unary hself) (by decide)
  have hterm : Draws P (term self) (Expr.Drawn P) := draws_binary hfactor (by decide)
  have hcomparison : Draws P (comparison self) (Expr.Drawn P) := draws_binary hterm (by decide)
  have hequality : Draws P (equality self) (Expr.Drawn P) := draws_binary hcomparison (by decide)
  have hconjunction : Draws P (conjunction self) (Expr.Drawn P) := draws_logical hequality (by decide)
  exact draws_logical hconjunction (by decide)

/-- The target is taken from the expression read first, with its own token. -/
theorem draws_assignment : Draws P (assignment self) (Expr.Drawn P) := by
  refine (draws_disjunction hself).bind fun target htarget => .accept? (fun equals _ => ?_) (.pure htarget)
  refine hself.bind fun value hvalue => ?_
  cases target with
  | «variable» reference => exact .pure ⟨htarget, hvalue⟩
  | get object name => exact .pure ⟨htarget.1, htarget.2, hvalue⟩
  | _ => exact (draws_reportOn equals _).bind fun _ _ => .pure htarget

omit hself in
/-- By induction on the nesting, which ties `self` back. -/
theorem draws_nestedExpression (n : Nat) : Draws P (nestedExpression n) (Expr.Drawn P) := by
  induction n with
  | zero => exact Draws.fail (α := SourceExpr) _
  | succ n ih => exact draws_assignment ih

omit hself in
/-- The bound on the nesting is the number of tokens. -/
theorem draws_expression : Draws P expression (Expr.Drawn P) :=
  .sized draws_nestedExpression

end Expressions

/-! ## Recovery

Tokens that are skipped are not in the tree, but the token that was complained about is one of the list. -/

/-- A declaration that is given up draws nothing for the tree; its tokens are skipped. -/
theorem Draws.orSynchronize {Q : SourceStmt → Prop} {p : Parser SourceStmt} (hp : Draws P p Q) :
    Draws P (orSynchronize p) fun found => ∀ s ∈ found, Q s := by
  intro ts hts
  obtain ⟨hrest, hresult⟩ := hp ts hts
  unfold Parser.orSynchronize
  split
  next s rest _ heq =>
    rw [heq] at hrest hresult
    refine ⟨hrest, fun found hfound u hu => ?_⟩
    obtain rfl : some s = found := Except.ok.inj hfound
    obtain rfl := Option.mem_some_iff.mp hu
    exact hresult s rfl
  next rest _ heq =>
    -- what is passed over is left out, and no declaration is found
    rw [heq] at hrest
    refine ⟨fun u hu => hrest u ((synchronize_rest rest).1.subset hu), fun found hfound u hu => ?_⟩
    rcases hsynchronize : (synchronize rest).result with e | a <;> simp only [hsynchronize] at hfound
    · cases hfound
    · cases hfound
      cases hu
  next heq =>
    rw [heq] at hrest
    exact ⟨hrest, fun _ h => nomatch h⟩

/-! ## Statements and declarations

The same for statements. A `for` loop has no node of its own, so its tree is looked at part by part. -/

theorem draws_inside : Draws P block.inside fun _ => True :=
  .look fun _ _ => .pure trivial

/-- The name is an identifier that was read. -/
theorem draws_varDeclaration : Draws P varDeclaration (Stmt.Drawn P) :=
  (draws_expect _ _).bind fun _ hname => (draws_accept _).bind fun _ _ =>
    .ite
      (draws_expression.bind fun _ he => (draws_expect _ _).bind fun _ _ =>
        .pure ⟨hname, fun _ hu => Option.mem_some_iff.mp hu ▸ he⟩)
      ((draws_expect _ _).bind fun _ _ => .pure ⟨hname, fun _ hu => nomatch hu⟩)

theorem draws_expressionStatement : Draws P expressionStatement (Stmt.Drawn P) :=
  draws_expression.bind fun _ he => (draws_expect _ _).bind fun _ _ => .pure he

/-- A clause that is missing asks for nothing. -/
theorem draws_expressionUnless (kind : Kind) :
    Draws P (expressionUnless kind) fun found => ∀ e ∈ found, e.Drawn P :=
  (draws_check _).bind fun _ _ =>
    .ite (.pure fun _ hu => nomatch hu) (draws_expression.bind fun _ he => .pure fun _ hu =>
      Option.mem_some_iff.mp hu ▸ he)

/-- A clause that is missing asks for nothing. -/
theorem draws_loopInitializer : Draws P loopInitializer fun found => ∀ s ∈ found, s.Drawn P :=
  (draws_accept _).bind fun _ _ => .ite (.pure fun _ hu => nomatch hu) <| (draws_accept _).bind fun _ _ =>
    .ite (draws_varDeclaration.bind fun _ hs => .pure fun _ hu => Option.mem_some_iff.mp hu ▸ hs)
      (draws_expressionStatement.bind fun _ hs => .pure fun _ hu => Option.mem_some_iff.mp hu ▸ hs)

/-- The block that a `for` statement stands for has the tokens of its clauses. -/
theorem drawn_forBlock {initializer : Option SourceStmt} {condition increment : Option SourceExpr}
    {body : SourceStmt} (hinitializer : ∀ s ∈ initializer, s.Drawn P) (hcondition : ∀ e ∈ condition, e.Drawn P)
    (hincrement : ∀ e ∈ increment, e.Drawn P) (hbody : body.Drawn P) :
    (forBlock initializer condition increment body).Drawn P := by
  -- without a condition the word for truth is put in its place
  have htest : (condition.getD (.literal (.bool true))).Drawn P := by
    cases condition with
    | none => exact .bool true
    | some e => exact hcondition e rfl
  have hloop : ∀ round : SourceStmt, round.Drawn P → (Stmt.block (initializer.toList ++
      [.while (condition.getD (.literal (.bool true))) round])).Drawn P := by
    refine fun round hround => Stmt.allDrawn_iff.mpr fun s hs => ?_
    rcases List.mem_append.mp hs with hs | hs
    · exact hinitializer s (Option.mem_toList.mp hs)
    · exact List.mem_singleton.mp hs ▸ ⟨htest, hround⟩
  cases increment with
  | none => exact hloop body hbody
  | some e => exact hloop (.block [body, .expression e]) ⟨hbody, hincrement e rfl, trivial⟩

section Nested

variable {statement : Parser SourceStmt} {declaration : Parser (Option SourceStmt)}
  (hstatement : Draws P statement (Stmt.Drawn P))
  (hdeclaration : Draws P declaration fun found => ∀ s ∈ found, s.Drawn P)

/-- Of a list of declarations those remain that are not broken. -/
theorem drawn_filterMap {found : List (Option SourceStmt)} (h : ∀ s? ∈ found, ∀ s ∈ s?, Stmt.Drawn P s) :
    Stmt.AllDrawn P (found.filterMap id) := by
  refine Stmt.allDrawn_iff.mpr fun s hs => ?_
  obtain ⟨s?, hs?, heq⟩ := List.mem_filterMap.mp hs
  exact h s? hs? s heq

include hdeclaration in
/-- The declarations that were given up are dropped from the list; those that are left were built. -/
theorem draws_block : Draws P (block declaration) (Stmt.AllDrawn P) :=
  (Draws.sized fun n => draws_whileM draws_inside hdeclaration n).bind fun _ hbody =>
    (draws_expect _ _).bind fun _ _ => .pure (drawn_filterMap hbody)

include hdeclaration in
/-- The name and the parameters are identifiers that were read. -/
theorem draws_function (what : String) : Draws P (function declaration what) (FunDecl.Drawn P) :=
  (draws_expect _ _).bind fun _ hname => (draws_expect _ _).bind fun _ _ =>
    (draws_untilParen (draws_expect _ _) _).bind fun _ hparams => (draws_expect _ _).bind fun _ _ =>
      (draws_expect _ _).bind fun _ _ => (draws_block hdeclaration).bind fun _ hbody =>
        .pure ⟨hname, hparams, hbody⟩

include hdeclaration in
/-- The name, the superclass and the names of the methods are identifiers that were read. -/
theorem draws_classDeclaration : Draws P (classDeclaration declaration) (Stmt.Drawn P) := by
  have hbody : ∀ (name : Token) (superclass : Option (Reference Unit)), name.Is P .identifier →
      (∀ r ∈ superclass, r.name.Is P .identifier) → Draws P (do
        let _ ← expect .leftBrace "'\x7b' before class body"
        let methods ← sized (whileM block.inside (function declaration "method"))
        let _ ← expect .rightBrace "'\x7d' after class body"
        return Stmt.class name superclass methods) (Stmt.Drawn P) := fun _ _ hname hsuperclass =>
    (draws_expect _ _).bind fun _ _ =>
      (Draws.sized fun n => draws_whileM draws_inside (draws_function hdeclaration _) n).bind fun _ hmethods =>
        (draws_expect _ _).bind fun _ _ => .pure ⟨hname, hsuperclass, FunDecl.allDrawn_iff.mpr hmethods⟩
  exact (draws_expect _ _).bind fun name hname => (draws_accept _).bind fun _ _ =>
    .ite
      ((draws_expect _ _).bind fun heir hheir =>
        hbody name (some (.bare heir)) hname fun _ hr => Option.mem_some_iff.mp hr ▸ hheir)
      (hbody name none hname fun _ hr => nomatch hr)

include hstatement in
/-- The clauses as they were read are put together to a block. -/
theorem draws_forStatement : Draws P (forStatement statement) (Stmt.Drawn P) :=
  (draws_expect _ _).bind fun _ _ => draws_loopInitializer.bind fun _ hinitializer =>
    (draws_expressionUnless _).bind fun _ hcondition => (draws_expect _ _).bind fun _ _ =>
      (draws_expressionUnless _).bind fun _ hincrement => (draws_expect _ _).bind fun _ _ =>
        hstatement.bind fun _ hbody => .pure (drawn_forBlock hinitializer hcondition hincrement hbody)

include hstatement in
theorem draws_ifStatement : Draws P (ifStatement statement) (Stmt.Drawn P) :=
  (draws_expect _ _).bind fun _ _ => draws_expression.bind fun _ hcondition => (draws_expect _ _).bind fun _ _ =>
    hstatement.bind fun _ hthen => (draws_accept _).bind fun _ _ =>
      .ite (hstatement.bind fun _ helse => .pure ⟨hcondition, hthen, helse⟩)
        (.pure ⟨hcondition, hthen, trivial⟩)

theorem draws_printStatement : Draws P printStatement (Stmt.Drawn P) :=
  draws_expression.bind fun _ he => (draws_expect _ _).bind fun _ _ => .pure he

/-- The keyword has been read by the caller and is kept in the tree. -/
theorem draws_returnStatement {keyword : Token} (hkeyword : keyword.Is P .return) :
    Draws P (returnStatement keyword) (Stmt.Drawn P) :=
  (draws_expressionUnless _).bind fun _ hvalue => (draws_expect _ _).bind fun _ _ => .pure ⟨hkeyword, hvalue⟩

include hstatement in
theorem draws_whileStatement : Draws P (whileStatement statement) (Stmt.Drawn P) :=
  (draws_expect _ _).bind fun _ _ => draws_expression.bind fun _ hcondition => (draws_expect _ _).bind fun _ _ =>
    hstatement.bind fun _ hbody => .pure ⟨hcondition, hbody⟩

include hstatement hdeclaration

/-- Each production builds what is asked of it, so the choice among them does. -/
theorem draws_statementWith : Draws P (statementWith ⟨statement, declaration⟩) (Stmt.Drawn P) := by
  refine .accept? (fun t ht => ?_) draws_expressionStatement
  dsimp only
  split
  next => exact draws_forStatement hstatement
  next => exact draws_ifStatement hstatement
  next => exact draws_printStatement
  next hkind => exact draws_returnStatement ⟨hkind, ht.2⟩
  next => exact draws_whileStatement hstatement
  next => exact (draws_block hdeclaration).map _ fun _ hbody => hbody

/-- A declaration, or nothing if it was given up. -/
theorem draws_declarationWith : Draws P (declarationWith ⟨statement, declaration⟩) (Stmt.Drawn P) :=
  (draws_accept _).bind fun _ _ => .ite (draws_classDeclaration hdeclaration) <|
    (draws_accept _).bind fun _ _ => .ite ((draws_function hdeclaration _).map _ fun _ hd => hd) <|
      (draws_accept _).bind fun _ _ => .ite draws_varDeclaration (draws_statementWith hstatement hdeclaration)

end Nested

/-- Statements and declarations of every depth of nesting. -/
theorem draws_nested (n : Nat) : Draws P (nestedStatement n) (Stmt.Drawn P) ∧
    Draws P (nestedDeclaration n) fun found => ∀ s ∈ found, s.Drawn P := by
  induction n with
  | zero => exact ⟨Draws.fail (α := SourceStmt) _, Draws.fail (α := Option SourceStmt) _⟩
  | succ n ih =>
    exact ⟨draws_statementWith ih.1 ih.2, Draws.orSynchronize (draws_declarationWith ih.1 ih.2)⟩

/-- The declarations up to the end. -/
theorem draws_program : Draws P program (Stmt.AllDrawn P) := by
  have hmore : Draws P (do return !(← atEnd)) fun _ => True :=
    (draws_check .eof).bind fun _ _ => .pure trivial
  have hdeclaration : Draws P declaration fun found => ∀ s ∈ found, s.Drawn P := .sized fun n => (draws_nested n).2
  exact (Draws.sized fun n => draws_whileM hmore hdeclaration n).bind fun _ hbody => .pure (drawn_filterMap hbody)

end Parser

/-! ## Whole programs

The bounds are those of the list, and the knot is tied by induction on them. -/

/-- Every token of a program is one of its list. -/
theorem parse_drawn {tokens : List Token} {parsed : Parsed} (h : parse tokens = some parsed)
    (hP : ∀ t ∈ tokens, P t) : Stmt.AllDrawn P parsed.program := by
  unfold parse at h
  split at h
  next program rest ds hprogram =>
    cases h
    have hresult := (Parser.draws_program tokens hP).2
    rw [hprogram] at hresult
    exact hresult program rfl
  next => cases h

end LoxLang
