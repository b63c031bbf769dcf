import LoxLang.Proofs.Parse.ProgramSound

/-!
# What has been read can become a sentence

A parser that has found nothing wrong when its list comes to an end has read the beginning of a sentence: there are
tokens to put behind the list that make a sentence of it. This holds of every list and for every bound on nesting.

* **`Reply.Viable`** — how a reply on a list is about the sentences that begin with the list.
* **`Parser.Viable`** — a parser with viable replies, as a triple with a rule for each way to compose parsers.
* **`Parser.viable_program`** — the parser of programs.

The sentences are those of the relaxed grammar. Whether an `else` belongs to the nearest `if` does not matter here, so
that what a parser has seen behind its tokens need not be remembered.
-/

namespace LoxLang

/-- A reply on the list `ts`, where `D a w` says that `w` is a sentence with the tree `a`. -/
inductive Reply.Viable {α : Type} (D : α → List Token → Prop) (ts : List Token) (reply : Reply α) : Prop where
  /-- Something is wrong that the relaxed grammar does not excuse. -/
  | broken (hds : ¬ Dialect.relaxed.Excuses reply.diagnostics)
  /-- A sentence has been read. -/
  | read {a : α} {w : List Token} (hresult : reply.result = .ok a) (hts : ts = w ++ reply.rest) (hD : D a w)
  /-- The list has come to its end, in front of tokens that would make it a sentence. -/
  | unfinished {a : α} {v : List Token} (hresult : reply.result = .error .pastEnd) (hD : D a (ts ++ v))
  /-- The bound has been too small. -/
  | exhausted (hresult : reply.result = .error .exhausted)

/-- A token that is taken from the front of the list. -/
theorem Reply.Viable.cons {α : Type} {D : α → List Token → Prop} {t : Token} {ts : List Token} {reply : Reply α}
    (h : reply.Viable (fun a w => D a (t :: w)) ts) : reply.Viable D (t :: ts) := by
  cases h with
  | broken hds => exact .broken hds
  | read hresult hts hD => exact .read hresult (by rw [List.cons_append, ← hts]) hD
  | unfinished hresult hD => exact .unfinished hresult hD
  | exhausted hresult => exact .exhausted hresult

namespace Parser

variable {α β : Type}

/-- On every list the parser gives a viable reply about the sentences `D`, of which there are some. -/
structure Viable (p : Parser α) (D : α → List Token → Prop) : Prop where
  inhabited : ∃ a w, D a w
  reply : ∀ ts, (p ts).Viable D ts

namespace Viable

variable {p : Parser α} {f : α → Parser β} {D : α → List Token → Prop} {E : β → List Token → Prop}

/-! ## Rules

Two things are carried along: how the reply is about the sentences, and that there are sentences at all. The second is
needed where a list ends in the first of two parsers, since something has to be put in the place of what the other one
would have read. -/

/-- Sentences for one purpose that will do for another. -/
theorem mono {D' : α → List Token → Prop} (h : Viable p D) (himp : ∀ a w, D a w → D' a w) : Viable p D' := by
  refine ⟨?_, fun ts => ?_⟩
  · obtain ⟨a, w, hD⟩ := h.inhabited
    exact ⟨a, w, himp a w hD⟩
  · cases h.reply ts with
    | broken hds => exact .broken hds
    | read hresult hts hD => exact .read hresult hts (himp _ _ hD)
    | unfinished hresult hD => exact .unfinished hresult (himp _ _ hD)
    | exhausted hresult => exact .exhausted hresult

/-- The empty list is a sentence of what reads nothing. -/
theorem pure {a : α} (h : D a []) : Viable (Pure.pure a) D :=
  ⟨⟨a, [], h⟩, fun _ => .read (w := []) rfl rfl h⟩

/-- Where a bound is used up, no matter what is wanted. -/
theorem fail (h : ∃ a w, D a w) : Viable (fail .exhausted : Parser α) D :=
  ⟨h, fun _ => .exhausted rfl⟩

/-- Some bound is used, and whatever it is the reply is viable. -/
theorem sized {p : Nat → Parser α} (h : ∀ n, Viable (p n) D) : Viable (Parser.sized p) D :=
  ⟨(h 0).inhabited, fun ts => (h (ts.length + 1)).reply ts⟩

/-- One parser behind another. When the list ends in the first, there are sentences for the second to put behind. -/
theorem bind (hp : Viable p D) (hf : ∀ a w, D a w → Viable (f a) fun b w' => E b (w ++ w')) :
    Viable (p >>= f) E := by
  refine ⟨?_, fun ts => ?_⟩
  · obtain ⟨a, w, hD⟩ := hp.inhabited
    obtain ⟨b, w', hE⟩ := (hf a w hD).inhabited
    exact ⟨b, w ++ w', hE⟩
  · have hreply := hp.reply ts
    rcases hp' : p ts with ⟨e | a, rest, ds⟩ <;> rw [hp'] at hreply
    · rw [bind_error hp']
      cases hreply with
      | broken hds => exact .broken hds
      | read hresult => cases hresult
      | @unfinished a v hresult hD =>
        cases hresult
        -- a sentence of the second parser completes the list
        obtain ⟨b, w', hE⟩ := (hf a _ hD).inhabited
        exact .unfinished (v := v ++ w') rfl (by rwa [← List.append_assoc])
      | exhausted hresult =>
        cases hresult
        exact .exhausted rfl
    · -- the first parser has read a sentence, and the reply is that of the second
      rw [bind_reply hp']
      cases hreply with
      | broken hds => exact .broken fun h => hds (Dialect.excuses_append.mp h).1
      | unfinished hresult => cases hresult
      | exhausted hresult => cases hresult
      | @read _ w hresult hts hD =>
        cases hresult
        cases (hf a w hD).reply rest with
        | broken hds => exact .broken fun h => hds (Dialect.excuses_append.mp h).2
        | read hresult' hts' hE => exact .read hresult' (by rw [List.append_assoc, ← hts', hts]) hE
        | unfinished hresult' hE => exact .unfinished hresult' (by rwa [hts, List.append_assoc])
        | exhausted hresult' => exact .exhausted hresult'

/-- The tree is made from the one that was read, for the same sentence. -/
theorem map {k : α → β} (h : Viable p D) (himp : ∀ a w, D a w → E (k a) w) : Viable (k <$> p) E :=
  h.bind fun a w hD => .pure (by simpa using himp a w hD)

/-- Both branches are about the same sentences. -/
theorem ite {c : Prop} [Decidable c] {p' : Parser α} (h : Viable p D) (h' : Viable p' D) :
    Viable (if c then p else p') D := by
  split
  · exact h
  · exact h'

/-- A parser that needs a token: what it does with the one in front decides. -/
theorem of_cons (hD : ∃ a w, D a w) (hnil : p [] = ⟨.error .pastEnd, [], []⟩)
    (hcons : ∀ t ts, (p (t :: ts)).Viable D (t :: ts)) : Viable p D := by
  refine ⟨hD, fun ts => ?_⟩
  cases ts with
  | nil =>
    obtain ⟨a, w, hD⟩ := hD
    rw [hnil]
    exact .unfinished (v := w) rfl hD
  | cons t ts => exact hcons t ts

/-- A look at the token in front, which stays there. -/
theorem look {p : Parser α} {f : α → Parser β} (go : Token → α) (hnil : p [] = ⟨.error .pastEnd, [], []⟩)
    (hcons : ∀ t ts, p (t :: ts) = ⟨.ok (go t), t :: ts, []⟩) (hf : ∀ a, Viable (f a) E) (a : α) :
    Viable (p >>= f) E := by
  refine of_cons (hf a).inhabited (bind_error hnil) fun t ts => ?_
  rw [bind_ok (hcons t ts)]
  exact (hf _).reply (t :: ts)

/-- A look takes nothing. On the empty list, what is in the sentences for either answer completes it. -/
theorem check {kind : Kind} {f : Bool → Parser β} (hf : ∀ b, Viable (f b) E) :
    Viable (check kind >>= f) E :=
  look (fun t => t.kind == kind) rfl (check_cons kind) hf true

/-- If the token is taken, then it begins the sentence. -/
theorem accept? {kinds : List Kind} {f : Option Token → Parser β}
    (hsome : ∀ t, t.kind ∈ kinds → Viable (f (some t)) fun b w => E b (t :: w)) (hnone : Viable (f none) E) :
    Viable (accept? kinds >>= f) E := by
  refine of_cons hnone.inhabited rfl fun t ts => ?_
  by_cases ht : t.kind ∈ kinds
  · rw [bind_ok (accept?_pos ht ts)]
    exact ((hsome t ht).reply ts).cons
  · rw [bind_ok (accept?_neg ht ts)]
    exact hnone.reply (t :: ts)

theorem accept {kind : Kind} {f : Bool → Parser β}
    (htrue : ∀ t, t.kind = kind → Viable (f true) fun b w => E b (t :: w)) (hfalse : Viable (f false) E) :
    Viable (accept kind >>= f) E := by
  refine of_cons hfalse.inhabited rfl fun t ts => ?_
  by_cases ht : t.kind = kind
  · rw [bind_ok (accept_pos ht ts)]
    exact ((htrue t ht).reply ts).cons
  · rw [bind_ok (accept_neg ht ts)]
    exact hfalse.reply (t :: ts)

/-- What is wanted is never excused where it is missing. -/
theorem expect {kind : Kind} {expected : String} {f : Token → Parser β}
    (hf : ∀ t, t.kind = kind → Viable (f t) fun b w => E b (t :: w)) : Viable (expect kind expected >>= f) E := by
  have hD : ∃ b w, E b w := by
    obtain ⟨b, w, hE⟩ := (hf ⟨kind, "", .nil, 1⟩ rfl).inhabited
    exact ⟨b, _, hE⟩
  refine of_cons hD rfl fun t ts => ?_
  by_cases ht : t.kind = kind
  · rw [bind_ok (expect_pos ht expected ts)]
    exact ((hf t ht).reply ts).cons
  · rw [bind_error (expect_neg ht expected ts)]
    refine .broken fun h => ?_
    cases h _ (List.mem_singleton_self _)

/-- A token that is expected, without anything behind it. -/
theorem token (kind : Kind) (expected : String) :
    Viable (Parser.expect kind expected) fun t w => t.kind = kind ∧ w = [t] := by
  refine of_cons ⟨⟨kind, "", .nil, 1⟩, _, rfl, rfl⟩ rfl fun t ts => ?_
  by_cases ht : t.kind = kind
  · rw [expect_pos ht expected ts]
    exact .read (w := [t]) rfl rfl ⟨ht, rfl⟩
  · rw [expect_neg ht expected ts]
    refine .broken fun h => ?_
    cases h _ (List.mem_singleton_self _)

/-- A complaint is no part of a sentence. -/
theorem reportOn (t : Token) (cause : Cause) : Viable (reportOn t cause) fun _ w => w = [] :=
  ⟨⟨(), [], rfl⟩, fun _ => .read (w := []) rfl rfl rfl⟩

/-- A complaint is no part of a sentence. -/
theorem report (cause : Cause) : Viable (report cause) fun _ w => w = [] :=
  of_cons ⟨(), [], rfl⟩ rfl fun _ _ => .read (w := []) rfl rfl rfl

/-! ## Repetition

By induction on the bound. If it is used up the parser has failed for that reason, of which the reply says nothing. -/

variable {L : List α → List Token → Prop}

/-- A list may end before each item or within it; the shortest completion has no further items. -/
theorem whileM {more : Parser Bool} {item : Parser α} (go : Token → Bool)
    (hmore : more [] = ⟨.error .pastEnd, [], []⟩) (hgo : ∀ t ts, more (t :: ts) = ⟨.ok (go t), t :: ts, []⟩)
    (hnil : L [] []) (hcons : ∀ a as w w', D a w → L as w' → L (a :: as) (w ++ w')) (hitem : Viable item D)
    (n : Nat) : Viable (whileM more item n) L := by
  induction n with
  | zero => exact .fail ⟨[], [], hnil⟩
  | succ n ih =>
    refine look go hmore hgo (fun b => .ite ?_ (.pure hnil)) true
    exact hitem.bind fun a w ha => ih.bind fun as w' has => .pure (by simpa using hcons a as w w' ha has)

/-- Behind a comma another item is due, and there are sentences for one. -/
theorem commaSeparated {item : Parser α} (tooMany : Cause) (hone : ∀ a w, D a w → L [a] w)
    (hmore : ∀ a as comma w w', D a w → comma.kind = .comma → L as w' → L (a :: as) (w ++ comma :: w'))
    (hitem : Viable item D) (n count : Nat) : Viable (commaSeparated tooMany item n count) L := by
  induction n generalizing count with
  | zero =>
    obtain ⟨a, w, hD⟩ := hitem.inhabited
    exact .fail ⟨[a], w, hone a w hD⟩
  | succ n ih =>
    rw [commaSeparated_succ]
    refine Viable.bind (.ite (report tooMany) (.pure rfl)) ?_
    rintro _ _ rfl
    refine hitem.bind fun a w ha => .accept (fun comma hcomma => ?_) (.pure (by simpa using hone a w ha))
    exact (ih (count + 1)).bind fun as w' has => .pure (by simpa using hmore a as comma w w' ha hcomma has)

/-- With the parenthesis missing, the empty list of items completes it. -/
theorem untilParen {item : Parser α} {M : List α → List Token → Prop} (tooMany : Cause)
    (hone : ∀ a w, D a w → L [a] w)
    (hmore : ∀ a as comma w w', D a w → comma.kind = .comma → L as w' → L (a :: as) (w ++ comma :: w'))
    (hnil : M [] []) (hsome : ∀ as w, L as w → M as w) (hitem : Viable item D) :
    Viable (untilParen tooMany item) M :=
  .check fun _ => .ite (.pure hnil) <| .sized fun n => (commaSeparated tooMany hone hmore hitem n 0).mono hsome

end Viable

/-! ## Expressions

An operand completes whatever an expression may still wait for, and `exists_expression` is where one is made. -/

/-- At every level of precedence there is an expression: a literal is one. -/
theorem exists_expression (l : Level) : ∃ e w, l.Derives .relaxed e w := by
  -- `nil` alone is one, on each level
  have hprimary : Level.primary.Derives .relaxed (.literal .nil) [⟨.nil, "", .nil, 1⟩] := .literalNil rfl
  have hcall : Level.call.Derives .relaxed _ _ := .call hprimary .noSuffix
  have hunary : Level.unary.Derives .relaxed _ _ := .noUnary hcall
  have hjoined : ∀ r : Rank, (∃ e w, r.operand.Derives .relaxed e w) → ∃ e w, (Level.joined r).Derives .relaxed e w :=
    fun r ⟨e, w, h⟩ => ⟨e, _, .joined h .noOperation⟩
  have hfactor := hjoined .factor ⟨_, _, hunary⟩
  have hterm := hjoined .term hfactor
  have hcomparison := hjoined .comparison hterm
  have hequality := hjoined .equality hcomparison
  have hconjunction := hjoined .conjunction hequality
  have hdisjunction := hjoined .disjunction hconjunction
  match l with
  | .primary => exact ⟨_, _, hprimary⟩
  | .call => exact ⟨_, _, hcall⟩
  | .unary => exact ⟨_, _, hunary⟩
  | .joined .factor => exact hfactor
  | .joined .term => exact hterm
  | .joined .comparison => exact hcomparison
  | .joined .equality => exact hequality
  | .joined .conjunction => exact hconjunction
  | .joined .disjunction => exact hdisjunction
  | .assignment =>
    obtain ⟨e, w, h⟩ := hdisjunction
    exact ⟨e, w, .disjunction h⟩

section Expressions

variable {self : Parser SourceExpr} (hself : Viable self (Level.assignment.Derives .relaxed))
include hself

/-- A group waits for an expression and a parenthesis, `super` for a name, and everything else is complete with one
token. -/
theorem viable_primary : Viable (primary self) (Level.primary.Derives .relaxed) := by
  refine .of_cons (exists_expression .primary) rfl fun t ts => ?_
  have hlook : primary self (t :: ts) = _ := bind_ok (peek_cons t ts)
  rw [hlook]
  have htake : ∀ e, Level.primary.Derives .relaxed e [t] →
      (primary.take e (t :: ts)).Viable (Level.primary.Derives .relaxed) (t :: ts) :=
    fun e he => .read (w := [t]) rfl rfl he
  cases hkind : t.kind with
  | «super» =>
    refine Viable.reply (Viable.expect fun keyword hkeyword => .expect fun dot hdot => ?_) _
    exact .expect fun method hmethod => .pure (.super hkeyword hdot hmethod)
  | leftParen =>
    refine Viable.reply (Viable.expect fun open' hopen => hself.bind fun e w he => ?_) _
    exact .expect fun paren hparen => .pure (.grouping hopen he hparen)
  | «false» => exact htake _ (.literalFalse hkind)
  | «true» => exact htake _ (.literalTrue hkind)
  | nil => exact htake _ (.literalNil hkind)
  | number => exact htake _ (.literal (.inl hkind))
  | string => exact htake _ (.literal (.inr hkind))
  | this => exact htake _ (.this hkind)
  | identifier => exact htake _ (.identifier hkind)
  -- no expression starts here, which is complained about
  | _ =>
    refine .broken fun h => ?_
    cases h _ (List.mem_singleton_self _)

/-- Arguments wait for the parenthesis, a property for its name. -/
theorem viable_callTail (n : Nat) (e : SourceExpr) :
    Viable (callTail self n e) fun e' w => (Phrase.suffixes e e').Derives .relaxed w := by
  induction n generalizing e with
  | zero => exact .fail ⟨e, [], .noSuffix⟩
  | succ n ih =>
    have harguments : Viable (untilParen (.tooManyArguments (toString maxArguments)) self)
        fun es w => (Phrase.argumentList es).Derives .relaxed w :=
      .untilParen _ (fun _ _ h => .oneArgument h) (fun _ _ _ _ _ h hcomma hmore => .moreArguments h hcomma hmore)
        .noArguments (fun _ _ h => .someArguments h) hself
    refine .accept (fun open' hopen => ?_) (.accept (fun dot hdot => ?_) (.pure .noSuffix))
    · refine harguments.bind fun args w hargs => .expect fun paren hparen => ?_
      exact (ih (.call e paren args)).mono fun e' w' h => .arguments hopen hargs (.inl rfl) hparen h
    · exact .expect fun name hname => (ih (.get e name)).mono fun e' w' h => .property hdot hname h

/-- An operand and what is applied to it. -/
theorem viable_call : Viable (call self) (Level.call.Derives .relaxed) :=
  (viable_primary hself).bind fun e _ he => .sized fun n => (viable_callTail hself n e).mono fun _ _ h => .call he h

omit hself in
/-- Operators wait for nothing among themselves. -/
theorem viable_unaryOperators (n : Nat) : Viable (unaryOperators n)
    fun operators w => w = operators ∧ ∀ t ∈ operators, t.kind ∈ [Kind.bang, .minus] := by
  induction n with
  | zero => exact .fail ⟨[], [], rfl, by simp⟩
  | succ n ih =>
    refine .accept? (fun operator hoperator => ?_) (.pure ⟨rfl, by simp⟩)
    refine ih.bind fun operators w h => .pure ⟨by rw [h.1, List.append_nil], ?_⟩
    exact List.forall_mem_cons.mpr ⟨hoperator, h.2⟩

/-- Behind the operators an operand is due. -/
theorem viable_unary : Viable (unary self) (Level.unary.Derives .relaxed) := by
  refine (Viable.sized viable_unaryOperators).bind fun operators w h => ?_
  refine (viable_call hself).bind fun e w' he => .pure ?_
  rw [h.1, List.append_nil]
  exact derives_unaryOperators he operators h.2

omit hself in
/-- Behind an operator another operand is due. -/
theorem viable_operatorTail (r : Rank) {operand : Parser SourceExpr}
    (hoperand : Viable operand (r.operand.Derives .relaxed)) (n : Nat) (left : SourceExpr) :
    Viable (operatorTail r.operators r.node operand n left)
      fun e w => (Phrase.operations r left e).Derives .relaxed w := by
  induction n generalizing left with
  | zero => exact .fail ⟨left, [], .noOperation⟩
  | succ n ih =>
    refine .accept? (fun operator hoperator => hoperand.bind fun right w hright => ?_) (.pure .noOperation)
    exact (ih (r.node left operator right)).mono fun e w' h => .operation hoperator hright h

omit hself in
/-- A level of binary operators, over the level below it. -/
theorem viable_leftAssociative (r : Rank) {operand : Parser SourceExpr}
    (hoperand : Viable operand (r.operand.Derives .relaxed)) :
    Viable (leftAssociative r.operators r.node operand) ((Level.joined r).Derives .relaxed) :=
  hoperand.bind fun left _ hleft => .sized fun n =>
    (viable_operatorTail r hoperand n left).mono fun _ _ h => .joined hleft h

/-- All the levels of binary operators, one over the other. -/
theorem viable_disjunction : Viable (disjunction self) ((Level.joined .disjunction).Derives .relaxed) := by
  have hfactor := viable_leftAssociative .factor (viable_unary hself)
  have hterm := viable_leftAssociative .term hfactor
  have hcomparison := viable_leftAssociative .comparison hterm
  have hequality := viable_leftAssociative .equality hcomparison
  have hconjunction := viable_leftAssociative .conjunction hequality
  exact viable_leftAssociative .disjunction hconjunction

/-- Behind the equals sign a value is due. What is in front of it may be anything here, since the relaxed grammar does
not ask for a target. -/
theorem viable_assignment : Viable (assignment self) (Level.assignment.Derives .relaxed) := by
  refine (viable_disjunction hself).bind fun target w htarget => .accept? (fun equals hequals => ?_) ?_
  · replace hequals : equals.kind = .equal := List.mem_singleton.mp hequals
    refine hself.bind fun value w' hvalue => ?_
    -- a value that has no place is reported, not refused; the relaxed grammar has a rule for it
    have hmisplaced : (∀ r, target ≠ .variable r) → (∀ o n, target ≠ .get o n) →
        Level.assignment.Derives .relaxed target (w ++ equals :: w') :=
      fun hvariable hget => .misplaced rfl hvariable hget htarget hequals hvalue
    cases target with
    | «variable» reference =>
      obtain ⟨rfl, hbare, hname⟩ := variable_target htarget
      refine .pure ?_
      rw [hbare, List.append_nil]
      exact .assign hname hequals hvalue
    | get object name =>
      obtain ⟨w₁, dot, rfl, hdot, hname, hobject⟩ := property_target htarget
      refine .pure ?_
      simpa [Level.Derives] using Phrase.Derives.set hobject hdot hname hequals hvalue
    | _ =>
      refine (Viable.reportOn equals _).bind ?_
      rintro _ _ rfl
      exact .pure (by simpa using hmisplaced (by simp) (by simp))
  · exact .pure (by simpa [Level.Derives] using Phrase.Derives.disjunction htarget)

omit hself in
theorem viable_nestedExpression (n : Nat) : Viable (nestedExpression n) (Level.assignment.Derives .relaxed) := by
  induction n with
  | zero => exact .fail (exists_expression .assignment)
  | succ n ih => exact viable_assignment ih

omit hself in
/-- So it is with the bound that the parser takes from its list. -/
theorem viable_expression : Viable expression (Expression .relaxed) :=
  .sized viable_nestedExpression

end Expressions

/-! ## Simple statements

The keyword has been read by the caller, so the sentences begin with it. -/

/-- A name and a semicolon complete it. -/
theorem viable_varDeclaration {var : Token} (hvar : var.kind = .var) :
    Viable varDeclaration fun s w => VariableDeclaration .relaxed s (var :: w) := by
  refine .expect fun name hname => .accept (fun equals hequals => ?_) ?_
  · exact viable_expression.bind fun e w he => .expect fun semicolon hsemicolon =>
      .pure (.initialized hvar hname hequals he hsemicolon)
  · exact .expect fun semicolon hsemicolon => .pure (.plain hvar hname hsemicolon)

/-- An expression and a semicolon complete it. -/
theorem viable_expressionStatement : Viable expressionStatement (ExpressionStatement .relaxed) :=
  viable_expression.bind fun _ _ he => .expect fun _ hsemicolon => .pure (.mk he hsemicolon)

/-- A missing clause completes it. -/
theorem viable_expressionUnless (kind : Kind) : Viable (expressionUnless kind) (OptionalExpression .relaxed) :=
  .check fun _ => .ite (.pure .none) (viable_expression.bind fun _ _ he => .pure (by simpa using .some he))

/-- Behind `var` it is a declaration that has to be completed, otherwise a semicolon will do. -/
theorem viable_loopInitializer : Viable loopInitializer (LoopInitializer .relaxed) := by
  refine .accept (fun semicolon hsemicolon => .pure (.none hsemicolon)) (.accept (fun var hvar => ?_) ?_)
  · exact (viable_varDeclaration hvar).bind fun s w hs => .pure (by simpa using .var hs)
  · exact viable_expressionStatement.bind fun s w hs => .pure (by simpa using .expression hs)

/-- The sentences that are statements. -/
def IsStatement (s : SourceStmt) (w : List Token) : Prop :=
  ∃ o, (Clause.statement s o).Derives .relaxed w

/-- An expression and a semicolon complete it. -/
theorem viable_printStatement {keyword : Token} (hkeyword : keyword.kind = .print) :
    Viable printStatement fun s w => IsStatement s (keyword :: w) :=
  viable_expression.bind fun _ _ he => .expect fun _ hsemicolon => .pure ⟨false, .printing hkeyword he hsemicolon⟩

/-- A semicolon completes it. -/
theorem viable_returnStatement {keyword : Token} (hkeyword : keyword.kind = .return) :
    Viable (returnStatement keyword) fun s w => IsStatement s (keyword :: w) :=
  (viable_expressionUnless _).bind fun _ _ hvalue => .expect fun _ hsemicolon =>
    .pure ⟨false, .returning hkeyword hvalue hsemicolon⟩

/-! ## Statements with a body

A body can be completed by assumption. So an unfinished statement is completed by what is missing in front of its body
and by some body. -/

section Bodies

variable {statement : Parser SourceStmt} (hstatement : Viable statement IsStatement)
include hstatement

/-- The condition in parentheses, then the body. -/
theorem viable_whileStatement {keyword : Token} (hkeyword : keyword.kind = .while) :
    Viable (whileStatement statement) fun s w => IsStatement s (keyword :: w) := by
  refine .expect fun open' hopen => viable_expression.bind fun condition w₁ hcondition => ?_
  refine .expect fun close hclose => hstatement.bind fun body w₂ ⟨o, hbody⟩ => .pure ⟨o, ?_⟩
  rw [List.append_nil]
  exact .whileLoop hkeyword hopen hcondition hclose hbody

/-- The clauses with their semicolons, then the body. -/
theorem viable_forStatement {keyword : Token} (hkeyword : keyword.kind = .for) :
    Viable (forStatement statement) fun s w => IsStatement s (keyword :: w) := by
  refine .expect fun open' hopen => viable_loopInitializer.bind fun initializer w₁ hinitializer => ?_
  refine (viable_expressionUnless _).bind fun condition w₂ hcondition => .expect fun semicolon hsemicolon => ?_
  refine (viable_expressionUnless _).bind fun increment w₃ hincrement => .expect fun close hclose => ?_
  refine hstatement.bind fun body w₄ ⟨o, hbody⟩ => .pure ⟨o, ?_⟩
  have h := Clause.Derives.forLoop hkeyword hopen hinitializer hcondition hsemicolon hincrement hclose hbody
  rw [List.append_nil]
  cases increment <;> exact h

/-- Where a list ends behind the first branch it is complete without an `else`. -/
theorem viable_ifStatement {keyword : Token} (hkeyword : keyword.kind = .if) :
    Viable (ifStatement statement) fun s w => IsStatement s (keyword :: w) := by
  refine .expect fun open' hopen => viable_expression.bind fun condition w₁ hcondition => ?_
  refine .expect fun close hclose => hstatement.bind fun thenBranch w₂ ⟨o₁, hthen⟩ => ?_
  refine .accept (fun else' helse => hstatement.bind fun elseBranch w₃ ⟨o₂, helseBranch⟩ => ?_) ?_
  · refine .pure ⟨o₂, ?_⟩
    rw [List.append_nil]
    exact .ifElse hkeyword hopen hcondition hclose hthen (fun h => by cases h) helse helseBranch
  · refine .pure ⟨true, ?_⟩
    rw [List.append_nil]
    exact .ifThen hkeyword hopen hcondition hclose hthen

end Bodies

/-! ## Recovery

Behind a first complaint nothing is claimed, and so the recovery is viable whatever it does. -/

/-- A declaration has been read. A broken one is complained about. -/
theorem Viable.orSynchronize {p : Parser SourceStmt} {D : SourceStmt → List Token → Prop} (h : Viable p D) :
    Viable (orSynchronize p) fun s? w => ∃ s, s? = some s ∧ D s w := by
  refine ⟨?_, fun ts => ?_⟩
  · obtain ⟨s, w, hD⟩ := h.inhabited
    exact ⟨some s, w, s, rfl, hD⟩
  · unfold Parser.orSynchronize
    have hreply := h.reply ts
    rcases hp : p ts with ⟨(_ | _ | _) | s, rest, ds⟩ <;> rw [hp] at hreply <;> cases hreply with
    | broken hds => exact .broken hds
    | read hresult hts hD =>
      cases hresult
      all_goals exact .read rfl hts ⟨_, rfl, hD⟩
    | unfinished hresult hD =>
      cases hresult
      all_goals exact .unfinished rfl ⟨_, rfl, hD⟩
    | exhausted hresult =>
      cases hresult
      all_goals exact .exhausted rfl

/-! ## Blocks, functions and classes

The loops end at a brace, and this is what completes them. -/

/-- The sentences that are declarations, none of them broken. -/
def IsDeclaration (s? : Option SourceStmt) (w : List Token) : Prop :=
  ∃ s, s? = some s ∧ ∃ o, (Clause.declaration s o).Derives .relaxed w

/-- The sentences that are declarations one behind the other, none of them broken. -/
def AreDeclarations (ss : List (Option SourceStmt)) (w : List Token) : Prop :=
  (Clause.declarations (ss.filterMap id)).Derives .relaxed w

/-- Names between commas or none. -/
theorem viable_params : Viable (untilParen (.tooManyParameters (toString maxArguments))
    (expect .identifier "parameter name")) Parameters := by
  refine .untilParen (L := fun ps w => ps ≠ [] ∧ Parameters ps w) _ ?_ ?_ .none (fun _ _ h => h.2) (.token _ _)
  · rintro p _ ⟨hp, rfl⟩
    exact ⟨by simp, .one hp⟩
  · rintro p ps comma _ w ⟨hp, rfl⟩ hcomma ⟨hne, hps⟩
    obtain ⟨q, ps, rfl⟩ := List.exists_cons_of_ne_nil hne
    exact ⟨by simp, .more hp hcomma hps⟩

section Declarations

variable {declaration : Parser (Option SourceStmt)} (hdeclaration : Viable declaration IsDeclaration)
include hdeclaration

/-- No more declarations complete a list of them. One that was given up has left a complaint that nothing excuses. -/
theorem viable_declarations {more : Parser Bool} (go : Token → Bool) (hmore : more [] = ⟨.error .pastEnd, [], []⟩)
    (hgo : ∀ t ts, more (t :: ts) = ⟨.ok (go t), t :: ts, []⟩) :
    Viable (sized (whileM more declaration)) AreDeclarations := by
  refine .sized (.whileM go hmore hgo .noDeclaration ?_ hdeclaration)
  rintro _ ss w w' ⟨s, rfl, o, hs⟩ hss
  exact .moreDeclarations hs hss

theorem viable_block :
    Viable (block declaration) fun ss w => ∃ w' close, w = w' ++ [close] ∧ close.kind = .rightBrace ∧
      (Clause.declarations ss).Derives .relaxed w' :=
  (viable_declarations hdeclaration _ rfl fun _ _ => rfl).bind fun _ w hss => .expect fun close hclose =>
    .pure ⟨w, close, rfl, hclose, hss⟩

/-- Parameters and a block complete a function. -/
theorem viable_function (what : String) :
    Viable (function declaration what) fun f w => (Clause.function f).Derives .relaxed w := by
  refine .expect fun name hname => .expect fun open' hopen => viable_params.bind fun params w₁ hparams => ?_
  refine .expect fun close hclose => .expect fun open'' hopen' => (viable_block hdeclaration).bind ?_
  rintro body _ ⟨w₂, close', rfl, hclose', hbody⟩
  refine .pure ?_
  rw [List.append_nil]
  exact .function hname hopen hparams (.inl rfl) hclose hopen' hbody hclose'

/-- No more methods complete a list of them. -/
theorem viable_methods : Viable (sized (whileM block.inside (function declaration "method")))
    fun fs w => (Clause.functions fs).Derives .relaxed w :=
  .sized (.whileM _ rfl (fun _ _ => rfl) .noFunction (fun _ _ _ _ hf hfs => .moreFunctions hf hfs)
    (viable_function hdeclaration "method"))

/-- A name and braces complete a class. -/
theorem viable_classDeclaration {keyword : Token} (hkeyword : keyword.kind = .class) :
    Viable (classDeclaration declaration) fun s w =>
      (Clause.declaration s false).Derives .relaxed (keyword :: w) := by
  have hmethods := viable_methods hdeclaration
  refine .expect fun name hname => .accept (fun less hless => .expect fun superclass hsuperclass => ?_) ?_
  · refine .expect fun open' hopen => hmethods.bind fun methods w hmethods => .expect fun close hclose => ?_
    exact .pure (.classDeclaration hkeyword hname (.some hless hsuperclass) hopen hmethods hclose)
  · refine .expect fun open' hopen => hmethods.bind fun methods w hmethods => .expect fun close hclose => ?_
    exact .pure (.classDeclaration hkeyword hname .none hopen hmethods hclose)

end Declarations

/-! ## Every depth of nesting

Both parsers together, by induction on the depth. -/

/-- The parsers for what is nested in a statement are viable. -/
structure Nested.Viable (nested : Nested) : Prop where
  statement : Parser.Viable nested.statement IsStatement
  declaration : Parser.Viable nested.declaration IsDeclaration

section Nested

variable {nested : Nested} (hnested : nested.Viable)
include hnested

/-- The token in front decides what kind of statement has to be completed. -/
theorem viable_statementWith : Viable (statementWith nested) IsStatement := by
  refine .accept? (fun t ht => ?_) (viable_expressionStatement.mono fun s w hs => ⟨false, .expression hs⟩)
  dsimp only
  cases hkind : t.kind with
  | «for» => exact viable_forStatement hnested.statement hkind
  | «if» => exact viable_ifStatement hnested.statement hkind
  | print => exact viable_printStatement hkind
  | «return» => exact viable_returnStatement hkind
  | «while» => exact viable_whileStatement hnested.statement hkind
  | leftBrace =>
    refine (viable_block hnested.declaration).map ?_
    rintro ss _ ⟨w, close, rfl, hclose, hss⟩
    exact ⟨false, .block hkind hss hclose⟩
  | _ => exact absurd (hkind ▸ ht) (by decide)

/-- A declaration by its keyword, otherwise a statement. -/
theorem viable_declarationWith :
    Viable (declarationWith nested) fun s w => ∃ o, (Clause.declaration s o).Derives .relaxed w := by
  refine .accept (fun keyword hkeyword => ?_) (.accept (fun keyword hkeyword => ?_) (.accept (fun var hvar => ?_) ?_))
  · exact (viable_classDeclaration hnested.declaration hkeyword).mono fun s w hs => ⟨false, hs⟩
  · exact (viable_function hnested.declaration "function").map fun f w hf => ⟨false, .functionDeclaration hkeyword hf⟩
  · exact (viable_varDeclaration hvar).mono fun s w hs => ⟨false, .variableDeclaration hs⟩
  · exact (viable_statementWith hnested).mono fun s w ⟨o, hs⟩ => ⟨o, .statement hs⟩

end Nested

/-- At depth zero the bound has been too small, and the reply says nothing else. -/
theorem nested_viable (n : Nat) : Nested.Viable ⟨nestedStatement n, nestedDeclaration n⟩ := by
  induction n with
  | zero =>
    obtain ⟨e, w, he⟩ := exists_expression .assignment
    have hstatement : (Clause.statement (.expression e) false).Derives .relaxed (w ++ [⟨.semicolon, "", .nil, 1⟩]) :=
      .expression (.mk he rfl)
    exact ⟨.fail ⟨_, _, false, hstatement⟩, .fail ⟨_, _, _, rfl, false, .statement hstatement⟩⟩
  | succ n ih => exact ⟨viable_statementWith ih, (viable_declarationWith ih).orSynchronize⟩

/-! ## Whole programs

Behind an unfinished program there is always room for the rest of a declaration and the end token. -/

/-- A declaration is completed by what is missing in it. -/
theorem viable_declaration : Viable declaration IsDeclaration :=
  .sized fun n => (nested_viable n).declaration

/-- The end token completes a list of declarations. -/
theorem viable_program : Viable program (Program .relaxed) :=
  (viable_declarations viable_declaration _ rfl fun _ _ => rfl).bind fun _ _ hss =>
    .pure (by rwa [List.append_nil])

end Parser

end LoxLang
