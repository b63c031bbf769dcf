import LoxLang.Proofs.Parse.ExpressionSound

/-!
# What is derived as an expression is read

* **`Parser.reads_of_derives`** — what a phrase derives in a dialect is read by the parser of the phrase, with the
  tree of the derivation and with complaints that the dialect excuses, if the tokens behind it do not continue it.
* **`Parser.expression_reads`** — the same for whole expressions.

The induction is on the derivation. Calls and properties are stated with what becomes of the rest, because the
target of an assignment stops before a property that the parser has already taken.
-/

namespace LoxLang

/-! ## What continues an expression

An expression is read as far as it goes. So what comes behind it must not be an operator of its level or of a tighter
one, and for each level there is a list of the tokens that would continue it. -/

/-- The kinds of tokens that continue an expression, those of the loosest level first. -/
def continuing : List Kind :=
  [.equal, .or, .and, .bangEqual, .equalEqual, .greater, .greaterEqual, .less, .lessEqual, .minus, .plus,
    .slash, .star, .leftParen, .dot]

/-- The kinds of tokens that continue an expression of a level. -/
def Level.follows : Level → List Kind
  | .assignment => continuing
  | .joined .disjunction => continuing.drop 1
  | .joined .conjunction => continuing.drop 2
  | .joined .equality => continuing.drop 3
  | .joined .comparison => continuing.drop 5
  | .joined .term => continuing.drop 9
  | .joined .factor => continuing.drop 11
  | .unary | .call => continuing.drop 13
  | .primary => []

/-- A token is in front that does not continue an expression of the level. -/
def Stops (l : Level) (rest : List Token) : Prop :=
  ∃ t ts, rest = t :: ts ∧ t.kind ∉ l.follows

/-- What stops a level stops the tighter ones. -/
theorem Stops.mono {l l' : Level} {rest : List Token} (h : Stops l rest) (hsub : l'.follows ⊆ l.follows) :
    Stops l' rest := by
  obtain ⟨t, ts, rfl, ht⟩ := h
  exact ⟨t, ts, rfl, fun hmem => ht (hsub hmem)⟩

/-- The token in front decides. -/
theorem stops_cons {l : Level} {t : Token} {k : Kind} (ht : t.kind = k) (hk : k ∉ l.follows)
    (ts : List Token) : Stops l (t :: ts) :=
  ⟨t, ts, rfl, ht ▸ hk⟩

/-- What continues an operand continues the operation. -/
theorem Rank.operand_follows (r : Rank) : r.operand.follows ⊆ (Level.joined r).follows := by
  cases r <;> decide

/-- An operator of a level continues it. -/
theorem Rank.operators_follow (r : Rank) : r.operators ⊆ (Level.joined r).follows := by
  cases r <;> decide

/-- An operator stops the operand before it, since no operand goes on with it. -/
theorem Rank.operators_stop {r : Rank} {k : Kind} (h : k ∈ r.operators) : k ∉ r.operand.follows := by
  revert k
  cases r <;> decide

/-! ## First tokens

That a phrase is not empty, and that it begins with none of the tokens that would end it. -/

/-- The kinds of tokens that an expression begins with. -/
def expressionStarts : List Kind :=
  .bang :: .minus :: Parser.primaryStarts

/-- What the tokens of a phrase begin with. -/
def Phrase.Starts : Phrase → List Token → Prop
  | .expr .primary _, w | .expr .call _, w => ∃ t w', w = t :: w' ∧ t.kind ∈ Parser.primaryStarts
  | .expr _ _, w | .arguments _, w => ∃ t w', w = t :: w' ∧ t.kind ∈ expressionStarts
  | .operations r _ _, w => w = [] ∨ ∃ t w', w = t :: w' ∧ t.kind ∈ r.operators
  | _, _ => True

/-- What begins a list begins a longer one. -/
theorem starts_append {ks : List Kind} {w : List Token} (h : ∃ t w', w = t :: w' ∧ t.kind ∈ ks)
    (rest : List Token) : ∃ t w', w ++ rest = t :: w' ∧ t.kind ∈ ks := by
  obtain ⟨t, w', rfl, ht⟩ := h
  exact ⟨t, w' ++ rest, rfl, ht⟩

/-- By induction on the derivation: the first part of a phrase begins it. -/
theorem Phrase.Derives.starts {d : Dialect} {p : Phrase} {w : List Token} (h : p.Derives d w) :
    p.Starts w := by
  -- a primary expression may stand wherever an expression begins, but not conversely: operators do not begin a target
  have hprimary : Parser.primaryStarts ⊆ expressionStarts :=
    fun k hk => List.mem_cons_of_mem _ (List.mem_cons_of_mem _ hk)
  induction h with
  | assign hname => exact ⟨_, _, rfl, by rw [hname]; decide⟩
  | set _ _ _ _ _ ih =>
    obtain ⟨t, w', rfl, ht⟩ := ih
    exact ⟨t, _, rfl, hprimary ht⟩
  | misplaced _ _ _ _ _ _ ih => exact starts_append ih _
  | disjunction _ ih => exact ih
  | @joined r _ _ _ _ _ _ ih =>
    cases r with
    | disjunction => exact starts_append ih _
    | conjunction => exact starts_append ih _
    | equality => exact starts_append ih _
    | comparison => exact starts_append ih _
    | term => exact starts_append ih _
    | factor => exact starts_append ih _
  | noOperation => exact .inl rfl
  | operation hoperator => exact .inr ⟨_, _, rfl, hoperator⟩
  | unary hoperator =>
    refine ⟨_, _, rfl, ?_⟩
    revert hoperator
    simp only [List.mem_cons, expressionStarts]
    rintro (h | h | h)
    · exact .inl h
    · exact .inr (.inl h)
    · cases h
  | noUnary _ ih =>
    obtain ⟨t, w', rfl, ht⟩ := ih
    exact ⟨t, w', rfl, hprimary ht⟩
  | call _ _ ih => exact starts_append ih _
  | noSuffix | arguments | property => exact trivial
  | oneArgument _ ih => exact ih
  | moreArguments _ _ _ ih => exact starts_append ih _
  | noArguments | someArguments => exact trivial
  | literalFalse ht | literalTrue ht | literalNil ht | this ht | identifier ht =>
    exact ⟨_, _, rfl, by rw [ht]; decide⟩
  | literal ht => exact ⟨_, _, rfl, by rcases ht with ht | ht <;> rw [ht] <;> decide⟩
  | grouping hopen => exact ⟨_, _, rfl, by rw [hopen]; decide⟩
  | super hkeyword => exact ⟨_, _, rfl, by rw [hkeyword]; decide⟩

/-! ## Reading level by level

Each lemma is one step of the parser at one level, from which the induction below puts together the reading of a phrase.
-/

namespace Parser

variable {d : Dialect} {self : Parser SourceExpr} {e e' : SourceExpr} {w rest rest' : List Token}

/-- What calls and properties come to is decided by the rest, whatever the number of rounds left. -/
def TailGives (d : Dialect) (self : Parser SourceExpr) (e : SourceExpr) (rest : List Token) (e' : SourceExpr)
    (rest' : List Token) : Prop :=
  ∀ k, rest.length < k → (callTail self k e rest).Gives d e' rest'

/-- Where nothing continues a call, the loop over suffixes ends. -/
theorem tailGives_stop (h : Stops .call rest) : TailGives d self e rest e rest := by
  intro k hk
  obtain ⟨t, ts, rfl, ht⟩ := h
  obtain ⟨k, rfl⟩ : ∃ k', k = k' + 1 := ⟨k - 1, by simp at hk; omega⟩
  rw [callTail, bind_ok (accept_neg (fun h => ht (by rw [h]; decide)) ts)]
  simp only [Bool.false_eq_true, if_false]
  rw [bind_ok (accept_neg (fun h => ht (by rw [h]; decide)) ts)]
  exact gives_pure e _

/-- A property is taken, and the loop goes on with the access to it. -/
theorem tailGives_property {dot name : Token} (hdot : dot.kind = .dot) (hname : name.kind = .identifier)
    (h : TailGives d self (.get e name) rest e' rest') : TailGives d self e (dot :: name :: rest) e' rest' := by
  intro k hk
  obtain ⟨k, rfl⟩ : ∃ k', k = k' + 1 := ⟨k - 1, by simp at hk; omega⟩
  have hne : dot.kind ≠ .leftParen := by simp [hdot]
  rw [callTail, bind_ok (accept_neg hne _)]
  simp only [Bool.false_eq_true, if_false]
  rw [bind_ok (accept_pos hdot _), if_pos rfl, bind_ok (expect_pos hname _ _)]
  exact h k (by simp at hk; omega)

/-- A call is what the suffixes make of a primary expression. -/
theorem call_of_primary {target : SourceExpr} (hprimary : (primary self (w ++ rest)).Gives d target rest)
    (h : TailGives d self target rest e rest') : (call self (w ++ rest)).Gives d e rest' :=
  gives_bind hprimary (h _ (Nat.lt_succ_self _))

/-- One more operator in front of an operand. -/
theorem unary_operator {operator : Token} (hoperator : operator.kind ∈ [Kind.bang, .minus])
    {ts : List Token} (h : (unary self ts).Gives d e rest) :
    (unary self (operator :: ts)).Gives d (.unary operator e) rest := by
  obtain ⟨operators, rest', hoperators, h⟩ := gives_of_bind h
  obtain ⟨operand, rest'', hoperand, ds, hds, h⟩ := gives_of_bind h
  cases h
  -- the operators are read in as many rounds, and in one more with the new one
  have hmore : (sized unaryOperators (operator :: ts)).Gives d (operator :: operators) rest' := by
    change (unaryOperators (ts.length + 1 + 1) (operator :: ts)).Gives d _ _
    rw [unaryOperators, bind_ok (accept?_pos hoperator ts)]
    exact gives_bind hoperators (gives_pure _ _)
  exact gives_bind hmore (gives_bind hoperand (gives_pure _ _))

/-- Without an operator in front the operand is all. -/
theorem unary_of_call (hstart : ∃ t w', w = t :: w' ∧ t.kind ∈ primaryStarts)
    (h : (call self w).Gives d e rest) : (unary self w).Gives d e rest := by
  obtain ⟨t, w', rfl, ht⟩ := hstart
  have hoperator : t.kind ∉ [Kind.bang, .minus] := by
    revert ht
    cases t.kind <;> decide
  have hnone : sized unaryOperators (t :: w') = ⟨.ok [], t :: w', []⟩ := by
    change unaryOperators ((t :: w').length + 1) (t :: w') = _
    rw [unaryOperators, bind_ok (accept?_neg hoperator w')]
    rfl
  unfold unary
  rw [bind_ok hnone]
  exact gives_bind h (gives_pure _ _)

/-- What becomes of the operators of a level is decided by the rest, whatever the number of rounds left. -/
def OperatorsGive (d : Dialect) (r : Rank) (self : Parser SourceExpr) (left : SourceExpr) (rest : List Token)
    (e : SourceExpr) (rest' : List Token) : Prop :=
  ∀ k, rest.length < k → (operatorTail r.operators r.node (ofLevel self r.operand) k left rest).Gives d e rest'

/-- Where no operator of the level follows, the loop over operators ends. -/
theorem operatorsGive_stop {r : Rank} {left : SourceExpr} (h : Stops (.joined r) rest) :
    OperatorsGive d r self left rest left rest := by
  intro k hk
  obtain ⟨t, ts, rfl, ht⟩ := h
  obtain ⟨k, rfl⟩ : ∃ k', k = k' + 1 := ⟨k - 1, by simp at hk; omega⟩
  rw [operatorTail, bind_ok (accept?_neg (fun hmem => ht (r.operators_follow hmem)) ts)]
  exact gives_pure left _

/-- An operator and its right operand are taken, and the loop goes on with the operation. -/
theorem operatorsGive_operator {r : Rank} {left right : SourceExpr} {operator : Token}
    (hoperator : operator.kind ∈ r.operators)
    (hright : (ofLevel self r.operand (w ++ rest)).Gives d right rest)
    (h : OperatorsGive d r self (r.node left operator right) rest e rest') :
    OperatorsGive d r self left (operator :: (w ++ rest)) e rest' := by
  intro k hk
  obtain ⟨k, rfl⟩ : ∃ k', k = k' + 1 := ⟨k - 1, by simp at hk; omega⟩
  rw [operatorTail, bind_ok (accept?_pos hoperator _)]
  exact gives_bind hright (h k (by simp at hk; omega))

/-- A level of binary operators reads an operand first, and then what its loop makes of it. -/
theorem joined_of_operand {r : Rank} {left : SourceExpr}
    (hleft : (ofLevel self r.operand (w ++ rest)).Gives d left rest)
    (h : OperatorsGive d r self left rest e rest') : (ofLevel self (.joined r) (w ++ rest)).Gives d e rest' := by
  rw [ofLevel_joined]
  exact gives_bind hleft (h _ (Nat.lt_succ_self _))

/-- An operand alone is an expression of every looser level up to disjunctions. -/
theorem disjunction_of_unary (h : (unary self (w ++ rest)).Gives d e rest)
    (hstop : Stops (.joined .disjunction) rest) : (disjunction self (w ++ rest)).Gives d e rest := by
  have hstep : ∀ r : Rank, (Level.joined r).follows ⊆ (Level.joined .disjunction).follows →
      (ofLevel self r.operand (w ++ rest)).Gives d e rest →
      (ofLevel self (.joined r) (w ++ rest)).Gives d e rest :=
    fun r hsub hoperand => joined_of_operand hoperand (operatorsGive_stop (hstop.mono hsub))
  have hfactor := hstep .factor (by decide) h
  have hterm := hstep .term (by decide) hfactor
  have hcomparison := hstep .comparison (by decide) hterm
  have hequality := hstep .equality (by decide) hcomparison
  have hconjunction := hstep .conjunction (by decide) hequality
  exact hstep .disjunction (by decide) hconjunction

/-- To the left of an equals sign, a call or a primary expression is read as a whole. -/
theorem target_reads {equals : Token} (hequals : equals.kind = .equal)
    (hstart : ∃ t w', w = t :: w' ∧ t.kind ∈ primaryStarts)
    (hcall : (call self (w ++ equals :: rest)).Gives d e (equals :: rest)) :
    (disjunction self (w ++ equals :: rest)).Gives d e (equals :: rest) := by
  have hunary := unary_of_call (starts_append hstart (equals :: rest)) hcall
  exact disjunction_of_unary hunary (stops_cons hequals (by decide) rest)

/-- Without an equals sign behind it, a disjunction is all. -/
theorem assignment_none (h : (disjunction self w).Gives d e rest) (hstop : Stops .assignment rest) :
    (assignment self w).Gives d e rest := by
  obtain ⟨t, ts, rfl, ht⟩ := hstop
  have hequals : t.kind ∉ [Kind.equal] := fun h => ht (by rw [List.mem_singleton.mp h]; decide)
  refine gives_bind h ?_
  rw [bind_ok (accept?_neg hequals ts)]
  exact gives_pure e _

section Assignment

variable {equals : Token} {ts : List Token} {value : SourceExpr} (hequals : equals.kind = .equal)
include hequals

/-- A variable in front of an equals sign is assigned to. -/
theorem assignment_variable {r : Reference Unit}
    (htarget : (disjunction self w).Gives d (.variable r) (equals :: ts)) (hvalue : (self ts).Gives d value rest) :
    (assignment self w).Gives d (.assign r value) rest := by
  refine gives_bind htarget ?_
  rw [bind_ok (accept?_pos (by simp [hequals]) ts)]
  exact gives_bind hvalue (gives_pure _ _)

/-- A property in front of an equals sign is set. -/
theorem assignment_property {name : Token} {object : SourceExpr}
    (htarget : (disjunction self w).Gives d (.get object name) (equals :: ts))
    (hvalue : (self ts).Gives d value rest) : (assignment self w).Gives d (.set object name value) rest := by
  refine gives_bind htarget ?_
  rw [bind_ok (accept?_pos (by simp [hequals]) ts)]
  exact gives_bind hvalue (gives_pure _ _)

/-- Any other target is complained about, where it may not stand. -/
theorem assignment_misplaced {target : SourceExpr} (hany : d.anyTarget = true)
    (hvariable : ∀ r, target ≠ .variable r) (hget : ∀ o n, target ≠ .get o n)
    (htarget : (disjunction self w).Gives d target (equals :: ts)) (hvalue : (self ts).Gives d value rest) :
    (assignment self w).Gives d target rest := by
  refine gives_bind htarget ?_
  rw [bind_ok (accept?_pos (by simp [hequals]) ts)]
  refine gives_bind hvalue ?_
  have hcause : d.excuses .invalidAssignmentTarget = true := hany
  have hreport : ((reportOn equals .invalidAssignmentTarget >>= fun _ => pure target : Parser SourceExpr)
      rest).Gives d target rest := gives_bind (reportOn_gives hcause equals rest) (gives_pure target rest)
  cases target with
  | «variable» r => exact absurd rfl (hvariable r)
  | get o n => exact absurd rfl (hget o n)
  | _ => exact hreport

end Assignment

/-! ### Primary expressions and arguments

Here tokens are told apart by their kinds, and lists by their commas. -/

/-- The tree of a primary expression that is a single token. -/
def single? (t : Token) : Option SourceExpr :=
  match t.kind with
  | .false => some (.literal (.bool false))
  | .true => some (.literal (.bool true))
  | .nil => some (.literal .nil)
  | .number | .string => some (.literal t.literal)
  | .this => some (.this (.bare t))
  | .identifier => some (.variable (.bare t))
  | _ => none

/-- A token that is an expression by itself. -/
theorem primary_single {t : Token} (h : single? t = some e) (rest : List Token) :
    (primary self (t :: rest)).Gives d e rest := by
  unfold primary
  rw [bind_ok (peek_cons t rest)]
  unfold single? at h
  split at h <;> cases h <;> rename_i hk <;> rw [hk] <;> exact .silent rfl

/-- The keyword, a dot and the name of a method. -/
theorem primary_super {keyword dot method : Token} (hkeyword : keyword.kind = .super) (hdot : dot.kind = .dot)
    (hmethod : method.kind = .identifier) (rest : List Token) :
    (primary self (keyword :: dot :: method :: rest)).Gives d (.super (.bare keyword) method) rest := by
  unfold primary
  rw [bind_ok (peek_cons keyword _)]
  simp only [hkeyword]
  rw [bind_ok (expect_pos hkeyword _ _), bind_ok (expect_pos hdot _ _), bind_ok (expect_pos hmethod _ _)]
  exact gives_pure _ _

theorem primary_grouping {open' paren : Token} (hopen : open'.kind = .leftParen)
    (hparen : paren.kind = .rightParen) (h : (self (w ++ paren :: rest)).Gives d e (paren :: rest)) :
    (primary self (open' :: (w ++ paren :: rest))).Gives d (.grouping e) rest := by
  unfold primary
  rw [bind_ok (peek_cons open' _)]
  simp only [hopen]
  rw [bind_ok (expect_pos hopen _ _)]
  refine gives_bind h ?_
  rw [bind_ok (expect_pos hparen _ _)]
  exact gives_pure _ _

/-- Arguments between parentheses are taken, and the loop goes on with the call. -/
theorem tailGives_arguments {open' paren : Token} {args : List SourceExpr} (hopen : open'.kind = .leftParen)
    (hparen : paren.kind = .rightParen)
    (hargs : (untilParen (.tooManyArguments (toString maxArguments)) self (w ++ paren :: rest)).Gives d args
      (paren :: rest))
    (h : TailGives d self (.call e paren args) rest e' rest') :
    TailGives d self e (open' :: (w ++ paren :: rest)) e' rest' := by
  intro k hk
  obtain ⟨k, rfl⟩ : ∃ k', k = k' + 1 := ⟨k - 1, by simp at hk; omega⟩
  rw [callTail, bind_ok (accept_pos hopen _), if_pos rfl]
  refine gives_bind hargs ?_
  rw [bind_ok (expect_pos hparen _ _)]
  exact h k (by simp at hk; omega)

section Commas

variable {α : Type} {item : Parser α} {tooMany : Cause} (hmany : d.excuses tooMany = d.unlimited)
include hmany

/-- One item more is read, if so many fit or are excused. -/
theorem commaSeparated_item {a : α} {as : List α} {k count : Nat} (hcount : d.Fits (count + 1)) (hne : w ≠ [])
    (hitem : (item w).Gives d a rest)
    (h : ((do
      if ← accept .comma then
        return a :: (← commaSeparated tooMany item k (count + 1))
      else
        return [a] : Parser (List α)) rest).Gives d as rest') :
    (commaSeparated tooMany item (k + 1) count w).Gives d as rest' := by
  obtain ⟨t, ts, rfl⟩ := List.exists_cons_of_ne_nil hne
  -- the limit is reported in front of the item, as soon as so many have been read
  have hreport : ((if maxArguments ≤ count then report tooMany else pure () : Parser Unit) (t :: ts)).Gives d ()
      (t :: ts) := by
    split
    · rename_i hlimit
      have hunlimited : d.unlimited = true := hcount.resolve_right (by unfold maxArguments at hlimit; omega)
      unfold report
      rw [bind_ok (peek_cons t ts)]
      exact reportOn_gives (hmany.trans hunlimited) t _
    · exact gives_pure () _
  rw [commaSeparated_succ]
  exact gives_bind hreport (gives_bind hitem h)

/-- An item without a comma behind it is the last one. -/
theorem commaSeparated_one {a : α} {k count : Nat} (hcount : d.Fits (count + 1)) (hne : w ≠ [])
    (hitem : (item w).Gives d a rest) (hrest : ∃ t ts, rest = t :: ts ∧ t.kind ≠ .comma) :
    (commaSeparated tooMany item (k + 1) count w).Gives d [a] rest := by
  obtain ⟨t, ts, rfl, ht⟩ := hrest
  refine commaSeparated_item hmany hcount hne hitem ?_
  rw [bind_ok (accept_neg ht ts)]
  exact gives_pure _ _

/-- An item with a comma behind it is followed by others. -/
theorem commaSeparated_more {a : α} {as : List α} {comma : Token} {ts : List Token} {k count : Nat}
    (hcount : d.Fits (count + 1)) (hne : w ≠ []) (hitem : (item w).Gives d a (comma :: ts))
    (hcomma : comma.kind = .comma) (hmore : (commaSeparated tooMany item k (count + 1) ts).Gives d as rest) :
    (commaSeparated tooMany item (k + 1) count w).Gives d (a :: as) rest := by
  refine commaSeparated_item hmany hcount hne hitem ?_
  rw [bind_ok (accept_pos hcomma ts)]
  exact gives_bind hmore (gives_pure _ _)

end Commas

/-- The parenthesis in front ends a list before it begins. -/
theorem untilParen_none {α : Type} {item : Parser α} {tooMany : Cause} {paren : Token}
    (hparen : paren.kind = .rightParen) (rest : List Token) :
    (untilParen tooMany item (paren :: rest)).Gives d [] (paren :: rest) := by
  rw [untilParen, bind_ok (check_cons _ _ _), beq_iff_eq.mpr hparen]
  exact gives_pure _ _

/-- Otherwise there is at least one item. -/
theorem untilParen_some {α : Type} {item : Parser α} {tooMany : Cause} {as : List α} {t : Token}
    {ts : List Token} (ht : t.kind ≠ .rightParen)
    (h : (commaSeparated tooMany item ((t :: ts).length + 1) 0 (t :: ts)).Gives d as rest) :
    (untilParen tooMany item (t :: ts)).Gives d as rest := by
  rw [untilParen, bind_ok (check_cons _ _ _), beq_eq_false_iff_ne.mpr ht]
  exact h

/-! ## Reading what is derived

By induction on the derivation. What is claimed of a phrase depends on its level, because the loops over operators and
suffixes are in the middle of their work when a phrase of them is read. -/

/-- What is derived from a phrase is read, if at most `n` expressions are nested. -/
def Reads (d : Dialect) (n : Nat) : Phrase → List Token → Prop
  | .expr .primary e, w => ∀ rest, (primary (nestedExpression n) (w ++ rest)).Gives d e rest
  | .expr .call e, w => ∀ rest e' rest', TailGives d (nestedExpression n) e rest e' rest' →
      (call (nestedExpression n) (w ++ rest)).Gives d e' rest'
  | .expr l e, w => ∀ rest, Stops l rest → (ofLevel (nestedExpression n) l (w ++ rest)).Gives d e rest
  | .operations r left e, w => ∀ rest, Stops (.joined r) rest →
      OperatorsGive d r (nestedExpression n) left (w ++ rest) e rest
  | .suffixes target e, w => ∀ rest e' rest', TailGives d (nestedExpression n) e rest e' rest' →
      TailGives d (nestedExpression n) target (w ++ rest) e' rest'
  | .arguments es, w => ∀ paren rest k count, w.length < n → paren.kind = .rightParen →
      (w ++ paren :: rest).length < k → d.Fits (count + es.length) →
      (commaSeparated (.tooManyArguments (toString maxArguments)) (nestedExpression n) k count
        (w ++ paren :: rest)).Gives d es (paren :: rest)
  | .argumentList es, w => ∀ paren rest, w.length < n → paren.kind = .rightParen → d.Fits es.length →
      (untilParen (.tooManyArguments (toString maxArguments)) (nestedExpression n) (w ++ paren :: rest)).Gives d
        es (paren :: rest)

/-- An expression in parentheses, in arguments or to the right of an equals sign. -/
theorem nested_reads {n : Nat} (h : ∀ m, w.length ≤ m → Reads d m (.expr .assignment e) w) (hlen : w.length < n)
    (hstop : Stops .assignment rest) : (nestedExpression n (w ++ rest)).Gives d e rest := by
  obtain ⟨m, rfl⟩ : ∃ m, n = m + 1 := ⟨n - 1, by omega⟩
  exact h m (by omega) rest hstop

/-- Behind an operand comes an operator of its level or the rest. -/
theorem operand_reads {r : Rank} {n : Nat} {operand left : SourceExpr} {w₁ w₂ : List Token}
    (hmore : (Phrase.operations r left e).Derives d w₂) (h : Reads d n (.expr r.operand operand) w₁)
    (hstop : Stops (.joined r) rest) :
    (ofLevel (nestedExpression n) r.operand (w₁ ++ (w₂ ++ rest))).Gives d operand (w₂ ++ rest) := by
  have hstop₁ : Stops r.operand (w₂ ++ rest) := by
    rcases hmore.starts with rfl | ⟨t, w', rfl, ht⟩
    · exact hstop.mono r.operand_follows
    · exact ⟨t, w' ++ rest, rfl, r.operators_stop ht⟩
  cases r <;> exact h _ hstop₁

/-- What is derived is read, phrase by phrase and for each bound on the nesting that suffices. -/
theorem reads_of_derives {p : Phrase} (h : p.Derives d w) : ∀ n, w.length ≤ n → Reads d n p w := by
  -- on the derivation; the bound on nesting is not less than the number of tokens, and drops with each nested
  -- expression
  induction h with
  | @assign name equals value w hname hequals hvalue ih =>
    intro n hlen rest hstop
    simp only [List.length_cons] at hlen
    have hprimary : (primary (nestedExpression n) ([name] ++ equals :: (w ++ rest))).Gives d
        (.variable (.bare name)) (equals :: (w ++ rest)) := primary_single (by simp [single?, hname]) _
    have hcall := call_of_primary hprimary (tailGives_stop (stops_cons hequals (by decide) _))
    have hdisjunction := target_reads hequals ⟨name, [], rfl, by rw [hname]; decide⟩ hcall
    exact assignment_variable hequals hdisjunction (nested_reads ih (by omega) hstop)
  | @set object value dot name equals w₁ w₂ hobject hdot hname hequals hvalue ih₁ ih₂ =>
    intro n hlen rest hstop
    simp only [List.length_append, List.length_cons] at hlen
    -- the target is read as a call, whose last suffix is the property
    have hcall : (call (nestedExpression n) ((w₁ ++ [dot, name]) ++ equals :: (w₂ ++ rest))).Gives d
        (.get object name) (equals :: (w₂ ++ rest)) := by
      rw [List.append_assoc]
      refine ih₁ n (by omega) _ _ _ (tailGives_property hdot hname ?_)
      exact tailGives_stop (stops_cons hequals (by decide) _)
    have hdisjunction := target_reads hequals (starts_append hobject.starts [dot, name]) hcall
    have hlist : w₁ ++ dot :: name :: equals :: w₂ ++ rest
        = (w₁ ++ [dot, name]) ++ equals :: (w₂ ++ rest) := by simp
    rw [hlist]
    exact assignment_property hequals hdisjunction (nested_reads ih₂ (by omega) hstop)
  | @misplaced target value equals w₁ w₂ hany hvariable hget _ hequals _ ih₁ ih₂ =>
    intro n hlen rest hstop
    simp only [List.length_append, List.length_cons] at hlen
    have hdisjunction := ih₁ n (by omega) (equals :: (w₂ ++ rest)) (stops_cons hequals (by decide) _)
    rw [List.append_assoc, List.cons_append]
    exact assignment_misplaced hequals hany hvariable hget hdisjunction (nested_reads ih₂ (by omega) hstop)
  | disjunction _ ih =>
    intro n hlen rest hstop
    exact assignment_none (ih n hlen rest (hstop.mono (by decide))) hstop
  | @joined r left e w₁ w₂ hleft hmore ih₁ ih₂ =>
    intro n hlen rest hstop
    rw [List.length_append] at hlen
    have hoperand := operand_reads hmore (ih₁ n (by omega)) hstop
    rw [List.append_assoc]
    exact joined_of_operand hoperand (ih₂ n (by omega) rest hstop)
  | noOperation =>
    intro n _ rest hstop
    exact operatorsGive_stop hstop
  | @operation r left right e operator w₁ w₂ hoperator hright hmore ih₁ ih₂ =>
    intro n hlen rest hstop
    simp only [List.length_cons, List.length_append] at hlen
    have hoperand := operand_reads hmore (ih₁ n (by omega)) hstop
    rw [List.cons_append, List.append_assoc]
    exact operatorsGive_operator hoperator hoperand (ih₂ n (by omega) rest hstop)
  | unary hoperator _ ih =>
    intro n hlen rest hstop
    rw [List.length_cons] at hlen
    exact unary_operator hoperator (ih n (by omega) rest hstop)
  | @noUnary e w h ih =>
    intro n hlen rest hstop
    have hcall := ih n hlen rest _ _ (tailGives_stop hstop)
    exact unary_of_call (starts_append h.starts rest) hcall
  | @call target e w₁ w₂ _ _ ih₁ ih₂ =>
    intro n hlen rest e' rest' htail
    rw [List.length_append] at hlen
    -- the suffixes go on from whatever the primary has given
    have htarget := ih₂ n (by omega) rest e' rest' htail
    rw [List.append_assoc]
    exact call_of_primary (ih₁ n (by omega) (w₂ ++ rest)) htarget
  | noSuffix => intro n _ rest e' rest' htail; exact htail
  | @arguments callee e args open' paren w₁ w₂ hopen hargs hfits hparen hmore ih₁ ih₂ =>
    intro n hlen rest e' rest' htail
    simp only [List.length_cons, List.length_append] at hlen
    have hlist : open' :: (w₁ ++ paren :: w₂) ++ rest = open' :: (w₁ ++ paren :: (w₂ ++ rest)) := by simp
    rw [hlist]
    exact tailGives_arguments hopen hparen (ih₁ n (by omega) paren _ (by omega) hparen hfits)
      (ih₂ n (by omega) rest e' rest' htail)
  | property hdot hname _ ih =>
    intro n hlen rest e' rest' htail
    simp only [List.length_cons] at hlen
    exact tailGives_property hdot hname (ih n (by omega) rest e' rest' htail)
  | oneArgument _ ih =>
    intro n _ paren rest k count hlen hparen hk hcount
    obtain ⟨k, rfl⟩ : ∃ k', k = k' + 1 := ⟨k - 1, by omega⟩
    have hitem := nested_reads ih hlen (stops_cons hparen (by decide) rest)
    exact commaSeparated_one rfl hcount (by simp) hitem ⟨paren, rest, rfl, by rw [hparen]; decide⟩
  | @moreArguments e es comma w₁ w₂ _ hcomma _ ih₁ ih₂ =>
    intro n _ paren rest k count hlen hparen hk hcount
    simp only [List.length_cons, List.length_append] at hlen hk hcount
    obtain ⟨k, rfl⟩ : ∃ k', k = k' + 1 := ⟨k - 1, by omega⟩
    have hstop : Stops .assignment (comma :: (w₂ ++ paren :: rest)) := stops_cons hcomma (by decide) _
    have hitem := nested_reads ih₁ (n := n) (by omega) hstop
    have hmore := ih₂ n (by omega) paren rest k (count + 1) (by omega) hparen (by simp; omega)
      (hcount.mono (by omega))
    rw [List.append_assoc, List.cons_append]
    exact commaSeparated_more rfl (hcount.mono (by omega)) (by simp) hitem hcomma hmore
  | noArguments =>
    intro n _ paren rest _ hparen _
    exact untilParen_none hparen rest
  | someArguments h ih =>
    intro n _ paren rest hlen hparen hcount
    have hlist := ih n (by omega) paren rest _ 0 hlen hparen (Nat.lt_succ_self _) (hcount.mono (by omega))
    obtain ⟨t, w', rfl, ht⟩ := h.starts
    -- an argument does not begin with the parenthesis that would end the list
    have hne : t.kind ≠ .rightParen := by
      intro h
      rw [h] at ht
      exact absurd ht (by decide)
    exact untilParen_some hne hlist
  | literalFalse ht | literalTrue ht | literalNil ht | this ht | identifier ht =>
    intro n _ rest
    exact primary_single (by simp [single?, ht]) rest
  | literal ht =>
    intro n _ rest
    exact primary_single (by rcases ht with ht | ht <;> simp [single?, ht]) rest
  | @grouping open' paren e w hopen _ hparen ih =>
    intro n hlen rest
    simp only [List.length_cons, List.length_append] at hlen
    rw [List.cons_append, List.append_assoc]
    exact primary_grouping hopen hparen (nested_reads ih (by omega) (stops_cons hparen (by decide) rest))
  | super hkeyword hdot hmethod =>
    intro n _ rest
    exact primary_super hkeyword hdot hmethod rest

/-- An expression is read from its tokens, if the next token does not continue it. -/
theorem expression_reads (h : Expression d e w) (hstop : Stops .assignment rest) :
    (expression (w ++ rest)).Gives d e rest := by
  refine nested_reads (reads_of_derives h) ?_ hstop
  rw [List.length_append]
  omega

end Parser

end LoxLang
