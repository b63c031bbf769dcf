import LoxLang.Proofs.Parse.Replies

/-!
# What is read as an expression is derived

The parsers of expressions answer on every list with an end token, and what they read is derived from their
rule in every dialect that puts up with what they complained about (`expression_answers`). The statement of a
level refers to the parser of nested expressions on shorter lists only.
-/

namespace LoxLang

/-- Of a result with the complaints made on the way: its tokens are derived from its phrase in every dialect
that excuses the complaints, and there is such a dialect. -/
def Derived {α : Type} (D : Dialect → α → List Token → Prop) (w : List Token) (a : α)
    (_rest : List Token) (ds : List Diagnostic) : Prop :=
  Dialect.relaxed.Excuses ds ∧ ∀ d : Dialect, d.Excuses ds → D d a w

/-- Without complaints, something is derived in every dialect if it is in each. -/
theorem Derived.silent {α : Type} {D : Dialect → α → List Token → Prop} {w rest : List Token} {a : α}
    (h : ∀ d, D d a w) : Derived D w a rest [] :=
  ⟨Dialect.excuses_nil, fun d _ => h d⟩

/-- The tokens of an expression of a level. -/
def Level.Derives (l : Level) (d : Dialect) (e : SourceExpr) (w : List Token) : Prop :=
  (Phrase.expr l e).Derives d w

namespace Parser

variable {α : Type} {self : Parser SourceExpr} {ts : List Token}

/-! ## Items between commas

Used for arguments and, with another item, for parameters. The number of items is compared with the limit in each round,
and a dialect that has the limit does not excuse the complaint. -/

/-- Items between commas, when `count` of them have been read: a list, and as many as the dialect allows. The
rounds suffice because each takes a comma. -/
theorem commaSeparated_answers {tooMany : Cause} {item : Parser α}
    {D : Dialect → α → List Token → Prop} {L : Dialect → List α → List Token → Prop} {m : Nat}
    (hmany : ∀ d : Dialect, d.excuses tooMany = d.unlimited)
    (hone : ∀ d a w, D d a w → L d [a] w)
    (hmore : ∀ d a as comma w₁ w₂, D d a w₁ → comma.kind = .comma → L d as w₂ →
      L d (a :: as) (w₁ ++ comma :: w₂))
    (hitem : ∀ ts, Ended ts → ts.length < m → item.Answers ts (Derived D)) (n : Nat) :
    ∀ {ts : List Token} (count : Nat), Ended ts → ts.length < n → ts.length < m →
      (commaSeparated tooMany item n count).Answers ts
        (Derived fun d as w => L d as w ∧ d.Fits (count + as.length)) := by
  induction n with
  | zero => intro ts count _ hlen; omega
  | succ n ih =>
    intro ts count hend hlen hm
    -- the complaint about the next item, if there is one
    have hreport : Answers (if maxArguments ≤ count then report tooMany else pure ()) ts fun w _ _ ds =>
        w = [] ∧ Dialect.relaxed.Excuses ds ∧ ∀ d : Dialect, d.Excuses ds → d.Fits (count + 1) := by
      obtain ⟨t, ts, rfl⟩ := hend.exists_cons
      split
      · have hstep : report tooMany (t :: ts) = ⟨.ok (), t :: ts, [.ofToken .parse tooMany t]⟩ := rfl
        refine .result (w := []) rfl (by simp) hend hstep ⟨rfl, ?_, fun d hd => .inl ?_⟩
        · intro x hx
          obtain rfl := List.mem_singleton.mp hx
          exact hmany _
        · rw [← hmany d]
          exact hd _ (List.mem_singleton_self _)
      · rename_i hcount
        have hfits : count + 1 ≤ 255 := by
          unfold maxArguments at hcount
          omega
        exact .pure hend ⟨rfl, Dialect.excuses_nil, fun d _ => .inr hfits⟩
    rw [commaSeparated_succ]
    refine hreport.bind ?_
    rintro _ - rest₀ ds₀ hts₀ hend ⟨rfl, hex₀, hfits⟩
    obtain rfl : ts = rest₀ := hts₀
    refine (hitem _ hend hm).bind fun w₁ a rest ds₁ hts hend h₁ => ?_
    refine answers_accept hend (by decide) (fun comma rest' hrest hcomma hend => ?_) fun _ => ?_
    · have hlen' : rest'.length < ts.length := by
        rw [hts, hrest, List.length_append, List.length_cons]
        omega
      refine (ih (count + 1) hend (by omega) (by omega)).bind fun w₂ as rest ds₂ _ hend h₂ => ?_
      refine .pure hend ⟨by simp [hex₀, h₁.1, h₂.1], fun d hd => ?_⟩
      simp only [Dialect.excuses_append] at hd
      obtain ⟨hL, hF⟩ := h₂.2 d hd.2.2.1
      refine ⟨?_, ?_⟩
      · simpa using hmore d a as comma w₁ w₂ (h₁.2 d hd.2.1) hcomma hL
      · rw [List.length_cons]
        rwa [Nat.add_right_comm, Nat.add_assoc] at hF
    · refine .pure hend ⟨by simp [hex₀, h₁.1], fun d hd => ?_⟩
      simp only [Dialect.excuses_append] at hd
      refine ⟨?_, hfits d hd.1⟩
      simpa using hone d a w₁ (h₁.2 d hd.2.1)

/-- Items between commas or none, up to a closing parenthesis. -/
theorem untilParen_answers {tooMany : Cause} {item : Parser α}
    {D : Dialect → α → List Token → Prop} {L M : Dialect → List α → List Token → Prop} {m : Nat}
    (hmany : ∀ d : Dialect, d.excuses tooMany = d.unlimited)
    (hone : ∀ d a w, D d a w → L d [a] w)
    (hmore : ∀ d a as comma w₁ w₂, D d a w₁ → comma.kind = .comma → L d as w₂ →
      L d (a :: as) (w₁ ++ comma :: w₂))
    (hnil : ∀ d, M d [] []) (hsome : ∀ d as w, L d as w → M d as w)
    (hitem : ∀ ts, Ended ts → ts.length < m → item.Answers ts (Derived D)) (hend : Ended ts)
    (hm : ts.length < m) :
    (untilParen tooMany item).Answers ts (Derived fun d as w => M d as w ∧ d.Fits as.length) := by
  refine answers_check hend (fun _ => ?_) fun _ => ?_
  · exact .pure hend (.silent fun d => ⟨hnil d, .inr (by simp)⟩)
  · have h := commaSeparated_answers hmany hone hmore hitem (ts.length + 1) 0 hend (by omega) hm
    simp only [Nat.zero_add] at h
    refine answers_sized (q := fun n => commaSeparated tooMany item n 0) ?_
    refine h.mono fun w as rest ds _ _ has => ⟨has.1, fun d hd => ?_⟩
    exact ⟨hsome d as w (has.2 d hd).1, (has.2 d hd).2⟩

/-! ## Primary expressions and calls

The token in front decides, and behind a parenthesis the parser of nested expressions is called on a shorter list. -/

/-- The parser of nested expressions does its work on lists shorter than `n`. -/
def Nests (self : Parser SourceExpr) (n : Nat) : Prop :=
  ∀ ts, Ended ts → ts.length < n → self.Answers ts (Derived Level.assignment.Derives)

/-- The fewer lists are spoken of, the less is claimed. -/
theorem Nests.mono {m n : Nat} (h : Nests self n) (hmn : m ≤ n) : Nests self m :=
  fun ts hend hlen => h ts hend (Nat.lt_of_lt_of_le hlen hmn)

/-- A token that is an expression by itself. -/
theorem take_answers {e : SourceExpr} {t : Token} {ts : List Token} (hend : Ended (t :: ts))
    (ht : t.kind ≠ .eof) (h : ∀ d, Level.primary.Derives d e [t]) :
    Answers (primary.take e) (t :: ts) (Derived Level.primary.Derives) := by
  have hw : ∀ u ∈ [t], u.kind ≠ .eof := by simpa using ht
  exact .result rfl hw (hend.tail ht) rfl (.silent h)

/-- The kinds of tokens that a primary expression begins with. -/
def primaryStarts : List Kind :=
  [.false, .true, .nil, .number, .string, .this, .identifier, .super, .leftParen]

/-- No expression begins with the token in front, which is complained about. -/
theorem primary_neg {t : Token} (h : t.kind ∉ primaryStarts) (ts : List Token) :
    primary self (t :: ts)
      = ⟨.error .mismatch, t :: ts, [.ofToken .parse .expectExpression t]⟩ := by
  unfold primary
  rw [bind_ok (peek_cons t ts)]
  generalize hk : t.kind = k at h
  cases k <;> first | rfl | exact absurd (by decide) h

/-- By the kind of the token in front. Every kind that begins no primary expression is complained about. -/
theorem primary_answers (hend : Ended ts) (hself : Nests self ts.length) :
    (primary self).Answers ts (Derived Level.primary.Derives) := by
  obtain ⟨t, ts, rfl⟩ := hend.exists_cons
  by_cases hstart : t.kind ∉ primaryStarts
  · refine .mismatch (w := []) rfl (by simp) hend (primary_neg hstart ts) fun h => ?_
    cases h _ (List.mem_singleton_self _)
  -- one case for each kind of token that a primary starts with; the last case cannot come up
  refine answers_look (bind_ok (peek_cons t ts)) ?_
  split
  · rename_i hk
    exact take_answers hend (by simp [hk]) fun _ => .literalFalse hk
  · rename_i hk
    exact take_answers hend (by simp [hk]) fun _ => .literalTrue hk
  · rename_i hk
    exact take_answers hend (by simp [hk]) fun _ => .literalNil hk
  · rename_i hk
    exact take_answers hend (by simp [hk]) fun _ => .literal (.inl hk)
  · rename_i hk
    exact take_answers hend (by simp [hk]) fun _ => .literal (.inr hk)
  · rename_i hk
    exact take_answers hend (by simp [hk]) fun _ => .this hk
  · rename_i hk
    exact take_answers hend (by simp [hk]) fun _ => .identifier hk
  · refine answers_expect hend (by decide) fun keyword ts hts hkeyword hend => ?_
    refine answers_expect hend (by decide) fun dot ts hts hdot hend => ?_
    refine answers_expect hend (by decide) fun method ts hts hmethod hend => ?_
    exact .pure hend (.silent fun _ => .super hkeyword hdot hmethod)
  · refine answers_expect hend (by decide) fun open' ts hts hopen hend => ?_
    rw [hts] at hself
    refine (hself ts hend (by simp)).bind fun w e rest ds _ hend h => ?_
    refine answers_expect hend (by decide) fun paren rest hrest hparen hend => ?_
    refine .pure hend ⟨by simpa using h.1, fun d hd => ?_⟩
    exact .grouping hopen (h.2 d (by simpa using hd)) hparen
  · simp_all [primaryStarts]

/-- Arguments up to the closing parenthesis. -/
theorem argumentList_answers (hend : Ended ts) {n : Nat} (hself : Nests self n) (hlen : ts.length < n) :
    (untilParen (.tooManyArguments (toString maxArguments)) self).Answers ts
      (Derived fun d es w => (Phrase.argumentList es).Derives d w ∧ d.Fits es.length) :=
  untilParen_answers (L := fun d es w => (Phrase.arguments es).Derives d w) (fun _ => rfl)
    (fun _ _ _ he => .oneArgument he) (fun _ _ _ _ _ _ he hcomma hes => .moreArguments he hcomma hes)
    (fun _ => .noArguments) (fun _ _ _ hes => .someArguments hes) hself hend hlen

/-- Calls and property accesses. The rounds suffice because each takes two tokens. -/
theorem callTail_answers (n : Nat) :
    ∀ {ts : List Token} (e : SourceExpr), Ended ts → ts.length < n → Nests self ts.length →
      (callTail self n e).Answers ts (Derived fun d e' w => (Phrase.suffixes e e').Derives d w) := by
  induction n with
  | zero => intro ts e _ hlen; omega
  | succ n ih =>
    intro ts e hend hlen hself
    refine answers_accept hend (by decide) (fun open' ts' hts hopen hend => ?_) fun _ => ?_
    · rw [hts, List.length_cons] at hlen hself
      refine (argumentList_answers hend hself (by omega)).bind fun w₁ es rest ds₁ hrest hend h₁ => ?_
      refine answers_expect hend (by decide) fun paren rest' hrest' hparen hend => ?_
      -- the arguments may be empty, but not the parenthesis behind them
      have hshort : rest'.length < ts'.length := by
        rw [hrest, hrest', List.length_append, List.length_cons]
        omega
      refine (ih (.call e paren es) hend (by omega) (hself.mono (by omega))).mono
        fun w₂ e' rest ds₂ _ _ h₂ => ⟨by simp [h₁.1, h₂.1], fun d hd => ?_⟩
      obtain ⟨hd₁, hd₂⟩ := Dialect.excuses_append.mp hd
      obtain ⟨hargs, hfits⟩ := h₁.2 d hd₁
      exact .arguments hopen hargs hfits hparen (h₂.2 d hd₂)
    · refine answers_accept hend (by decide) (fun dot ts' hts hdot hend => ?_) fun _ => ?_
      · refine answers_expect hend (by decide) fun name rest hrest hname hend => ?_
        rw [hts, hrest, List.length_cons, List.length_cons] at hlen hself
        refine (ih (.get e name) hend (by omega) (hself.mono (by omega))).mono
          fun w e' rest ds _ _ h => ⟨h.1, fun d hd => ?_⟩
        exact .property hdot hname (h.2 d hd)
      · exact .pure hend (.silent fun _ => .noSuffix)

/-- A primary expression and the suffixes behind it. -/
theorem call_answers (hend : Ended ts) (hself : Nests self ts.length) :
    (call self).Answers ts (Derived Level.call.Derives) := by
  refine (primary_answers hend hself).bind fun w₁ e rest ds₁ hts hend h₁ => ?_
  have hshort : rest.length ≤ ts.length := by
    rw [hts, List.length_append]
    omega
  have h := callTail_answers (rest.length + 1) e hend (by omega) (hself.mono hshort)
  refine answers_sized (q := fun n => callTail self n e) ?_
  refine h.mono fun w₂ e' rest ds₂ _ _ h₂ => ⟨by simp [h₁.1, h₂.1], fun d hd => ?_⟩
  obtain ⟨hd₁, hd₂⟩ := Dialect.excuses_append.mp hd
  exact .call (h₁.2 d hd₁) (h₂.2 d hd₂)

/-! ## Operators

The parser collects prefix operators and folds binary ones from the left, where the grammar nests. That it comes to the
same tree is shown level by level. -/

/-- The operators in front of an operand, and that the operand does not begin with another one. -/
theorem unaryOperators_answers (n : Nat) :
    ∀ {ts : List Token}, Ended ts → ts.length < n →
      (unaryOperators n).Answers ts fun w operators _ ds =>
        ds = [] ∧ w = operators ∧ ∀ t ∈ operators, t.kind ∈ [Kind.bang, .minus] := by
  induction n with
  | zero => intro ts _ hlen; omega
  | succ n ih =>
    intro ts hend hlen
    refine answers_accept? hend (by decide) (fun t ts' hts ht hend => ?_) fun _ => ?_
    · rw [hts, List.length_cons] at hlen
      refine (ih hend (by omega)).bind ?_
      rintro w operators rest ds _ hend ⟨rfl, rfl, hall⟩
      refine .pure hend ⟨rfl, by simp, ?_⟩
      simpa using ⟨by simpa using ht, by simpa using hall⟩
    · exact .pure hend ⟨rfl, rfl, by simp⟩

/-- Operators in front of an operand, by induction on them. -/
theorem derives_unaryOperators {d : Dialect} {e : SourceExpr} {w : List Token}
    (h : Level.call.Derives d e w) :
    ∀ operators : List Token, (∀ t ∈ operators, t.kind ∈ [Kind.bang, .minus]) →
      Level.unary.Derives d (operators.foldr .unary e) (operators ++ w)
  | [], _ => .noUnary h
  | t :: operators, hall =>
    .unary (hall t (by simp))
      (derives_unaryOperators h operators fun u hu => hall u (List.mem_cons_of_mem t hu))

/-- The operators in front are put around the operand, the last one first. -/
theorem unary_answers (hend : Ended ts) (hself : Nests self ts.length) :
    (unary self).Answers ts (Derived Level.unary.Derives) := by
  have hoperators := unaryOperators_answers (ts.length + 1) hend (by omega)
  refine (answers_sized hoperators).bind ?_
  rintro w₁ operators rest _ hts hend ⟨rfl, rfl, hall⟩
  have hshort : rest.length ≤ ts.length := by
    rw [hts, List.length_append]
    omega
  refine (call_answers hend (hself.mono hshort)).bind fun w₂ e rest ds _ hend h => ?_
  refine .pure hend ⟨by simpa using h.1, fun d hd => ?_⟩
  simpa using derives_unaryOperators (h.2 d (by simpa using hd)) w₁ hall

/-- Operators and operands of a level. The rounds suffice because each takes an operator. -/
theorem operatorTail_answers (r : Rank) {operand : Parser SourceExpr} {m : Nat}
    (hoperand : ∀ ts, Ended ts → ts.length < m → operand.Answers ts (Derived r.operand.Derives))
    (n : Nat) :
    ∀ {ts : List Token} (left : SourceExpr), Ended ts → ts.length < n → ts.length ≤ m →
      (operatorTail r.operators r.node operand n left).Answers ts
        (Derived fun d e w => (Phrase.operations r left e).Derives d w) := by
  induction n with
  | zero => intro ts left _ hlen; omega
  | succ n ih =>
    intro ts left hend hlen hm
    have hkinds : Kind.eof ∉ r.operators := by cases r <;> decide
    refine answers_accept? hend hkinds (fun operator ts' hts hoperator hend => ?_) fun _ => ?_
    · rw [hts, List.length_cons] at hlen hm
      refine (hoperand _ hend (by omega)).bind fun w₁ right rest ds₁ hrest hend h₁ => ?_
      -- the next round starts behind the operand
      have hshort : rest.length ≤ ts'.length := by
        rw [hrest, List.length_append]
        omega
      refine (ih (r.node left operator right) hend (by omega) (by omega)).mono
        fun w₂ e rest ds₂ _ _ h₂ => ⟨by simp [h₁.1, h₂.1], fun d hd => ?_⟩
      obtain ⟨hd₁, hd₂⟩ := Dialect.excuses_append.mp hd
      exact .operation hoperator (h₁.2 d hd₁) (h₂.2 d hd₂)
    · exact .pure hend (.silent fun _ => .noOperation)

/-- An operand, and as many operators of the level with operands as there are. -/
theorem leftAssociative_answers (r : Rank) {operand : Parser SourceExpr}
    (hoperand : ∀ ts', Ended ts' → ts'.length ≤ ts.length →
      operand.Answers ts' (Derived r.operand.Derives)) (hend : Ended ts) :
    (leftAssociative r.operators r.node operand).Answers ts (Derived (Level.joined r).Derives) := by
  refine (hoperand ts hend (Nat.le_refl _)).bind fun w₁ left rest ds₁ hts hend h₁ => ?_
  have hshort : rest.length ≤ ts.length := by
    rw [hts, List.length_append]
    omega
  have h := operatorTail_answers r (m := ts.length + 1)
    (fun ts' hend' hlen => hoperand ts' hend' (by omega)) (rest.length + 1) left hend (by omega) (by omega)
  refine answers_sized (h.mono fun w₂ e rest ds₂ _ _ h₂ => ⟨by simp [h₁.1, h₂.1], fun d hd => ?_⟩)
  obtain ⟨hd₁, hd₂⟩ := Dialect.excuses_append.mp hd
  exact .joined (h₁.2 d hd₁) (h₂.2 d hd₂)

/-! ## All levels

The levels of binary operators are one definition for each rank, so that one proof serves them all. -/

/-- The parser of a level. -/
def ofLevel (self : Parser SourceExpr) : Level → Parser SourceExpr
  | .assignment => assignment self
  | .joined .disjunction => disjunction self
  | .joined .conjunction => conjunction self
  | .joined .equality => equality self
  | .joined .comparison => comparison self
  | .joined .term => term self
  | .joined .factor => factor self
  | .unary => unary self
  | .call => call self
  | .primary => primary self

/-- A level of binary operators is made from the next tighter one. -/
theorem ofLevel_joined (r : Rank) :
    ofLevel self (.joined r) = leftAssociative r.operators r.node (ofLevel self r.operand) := by
  cases r <;> rfl

/-- By the ranks, from the tightest outwards. -/
theorem joined_answers (r : Rank) (hend : Ended ts) (hself : Nests self ts.length) :
    (ofLevel self (.joined r)).Answers ts (Derived (Level.joined r).Derives) := by
  -- one level rests on the next tighter one, on lists up to the length of `ts`
  have hstep : ∀ r : Rank,
      (∀ ts', Ended ts' → ts'.length ≤ ts.length →
        (ofLevel self r.operand).Answers ts' (Derived r.operand.Derives)) →
      ∀ ts', Ended ts' → ts'.length ≤ ts.length →
        (ofLevel self (.joined r)).Answers ts' (Derived (Level.joined r).Derives) := by
    intro r hoperand ts' hend hlen
    rw [ofLevel_joined]
    exact leftAssociative_answers r
      (fun ts'' hend' hlen' => hoperand ts'' hend' (Nat.le_trans hlen' hlen)) hend
  have hfactor := hstep .factor fun ts' hend hlen => unary_answers hend (hself.mono hlen)
  have hterm := hstep .term hfactor
  have hcomparison := hstep .comparison hterm
  have hequality := hstep .equality hcomparison
  have hconjunction := hstep .conjunction hequality
  have hdisjunction := hstep .disjunction hconjunction
  cases r with
  | disjunction => exact hdisjunction ts hend (Nat.le_refl _)
  | conjunction => exact hconjunction ts hend (Nat.le_refl _)
  | equality => exact hequality ts hend (Nat.le_refl _)
  | comparison => exact hcomparison ts hend (Nat.le_refl _)
  | term => exact hterm ts hend (Nat.le_refl _)
  | factor => exact hfactor ts hend (Nat.le_refl _)

/-! ## Targets of assignments

An assignment reads its target as a disjunction. When that turns out to be a variable or a property, it is
derived as the grammar wants a target to be derived. -/

/-- What may stand to the left of an equals sign. -/
def IsTarget (e : SourceExpr) : Prop :=
  (∃ x, e = .variable x) ∨ ∃ o n, e = .get o n

section Targets

variable {d : Dialect} {e : SourceExpr} {w : List Token}

/-- Operators leave no target behind. -/
theorem operations_target {p : Phrase} (h : p.Derives d w) :
    ∀ r left e, p = .operations r left e → IsTarget e → w = [] ∧ e = left := by
  induction h with
  | noOperation =>
    intro r left e hp _
    cases hp
    exact ⟨rfl, rfl⟩
  | @operation r left right e operator w₁ w₂ _ _ _ _ ih =>
    intro r' left' e' hp htarget
    cases hp
    have heq := (ih _ _ _ rfl htarget).2
    rcases htarget with ⟨x, rfl⟩ | ⟨o, n, rfl⟩ <;> cases r <;> cases heq
  | _ => intro r left e hp; cases hp

/-- A target is no operation, so what was read as one is its first operand. -/
theorem operand_of_joined {r : Rank} (h : (Level.joined r).Derives d e w) (htarget : IsTarget e) :
    r.operand.Derives d e w := by
  cases h with
  | joined hleft hmore =>
    obtain ⟨rfl, rfl⟩ := operations_target hmore _ _ _ rfl htarget
    rw [List.append_nil]
    exact hleft

/-- Rank by rank, a target comes down to a call. -/
theorem call_of_disjunction (h : (Level.joined .disjunction).Derives d e w) (htarget : IsTarget e) :
    Level.call.Derives d e w := by
  have hconjunction : (Level.joined .conjunction).Derives d e w := operand_of_joined h htarget
  have hequality : (Level.joined .equality).Derives d e w := operand_of_joined hconjunction htarget
  have hcomparison : (Level.joined .comparison).Derives d e w := operand_of_joined hequality htarget
  have hterm : (Level.joined .term).Derives d e w := operand_of_joined hcomparison htarget
  have hfactor : (Level.joined .factor).Derives d e w := operand_of_joined hterm htarget
  have hunary : Level.unary.Derives d e w := operand_of_joined hfactor htarget
  cases hunary with
  | unary => rcases htarget with ⟨x, hx⟩ | ⟨o, n, hx⟩ <;> cases hx
  | noUnary hcall => exact hcall

/-- The last of the suffixes that leave a property behind, or no suffix. -/
theorem suffixes_target {p : Phrase} (h : p.Derives d w) :
    ∀ e e', p = .suffixes e e' → IsTarget e' →
      (w = [] ∧ e' = e) ∨
      ∃ o n w' dot, e' = .get o n ∧ w = w' ++ [dot, n] ∧ dot.kind = .dot ∧ n.kind = .identifier ∧
        (Phrase.suffixes e o).Derives d w' := by
  induction h with
  | noSuffix =>
    intro e e' hp _
    cases hp
    exact .inl ⟨rfl, rfl⟩
  | @arguments callee e args open' paren w₁ w₂ hopen hargs hfits hparen _ _ ih =>
    intro e₁ e₂ hp htarget
    cases hp
    rcases ih _ _ rfl htarget with ⟨-, rfl⟩ | ⟨o, n, w', dot, rfl, rfl, hdot, hn, hsuffixes⟩
    · -- a call is no target, so a later suffix leaves the property behind
      rcases htarget with ⟨x, hx⟩ | ⟨o, n, hx⟩ <;> cases hx
    · refine .inr ⟨o, n, open' :: (w₁ ++ paren :: w'), dot, rfl, by simp, hdot, hn, ?_⟩
      exact .arguments hopen hargs hfits hparen hsuffixes
  | @property object e dot name w hdot hname _ ih =>
    intro e₁ e₂ hp htarget
    cases hp
    -- this access is the last suffix or a later one is
    rcases ih _ _ rfl htarget with ⟨rfl, rfl⟩ | ⟨o, n, w', dot', rfl, rfl, hdot', hn, hsuffixes⟩
    · exact .inr ⟨object, name, [], dot, rfl, rfl, hdot, hname, .noSuffix⟩
    · refine .inr ⟨o, n, dot :: name :: w', dot', rfl, by simp, hdot', hn, ?_⟩
      exact .property hdot hname hsuffixes
  | _ => intro e e' hp; cases hp

/-- A variable that was read as a disjunction is a single token. -/
theorem variable_target {r : Reference Unit} (h : (Level.joined .disjunction).Derives d (.variable r) w) :
    w = [r.name] ∧ r = .bare r.name ∧ r.name.kind = .identifier := by
  have htarget : IsTarget (.variable r) := .inl ⟨r, rfl⟩
  cases call_of_disjunction h htarget with
  | call hprimary hmore =>
    rcases suffixes_target hmore _ _ rfl htarget with ⟨rfl, rfl⟩ | ⟨o, n, w', dot, heq, -⟩
    · cases hprimary with
      | identifier ht => exact ⟨rfl, rfl, ht⟩
    · cases heq

/-- A property that was read as a disjunction ends with a dot and a name, and what is before these is a call. -/
theorem property_target {object : SourceExpr} {name : Token}
    (h : (Level.joined .disjunction).Derives d (.get object name) w) :
    ∃ w' dot, w = w' ++ [dot, name] ∧ dot.kind = .dot ∧ name.kind = .identifier ∧
      Level.call.Derives d object w' := by
  have htarget : IsTarget (.get object name) := .inr ⟨object, name, rfl⟩
  cases call_of_disjunction h htarget with
  | @call target _ w₁ w₂ hprimary hmore =>
    rcases suffixes_target hmore _ _ rfl htarget with
      ⟨rfl, rfl⟩ | ⟨o, n, w', dot, heq, rfl, hdot, hname, hsuffixes⟩
    · cases hprimary
    · cases heq
      refine ⟨w₁ ++ w', dot, by simp, hdot, hname, ?_⟩
      exact .call hprimary hsuffixes

end Targets

/-! ## Assignments and whole expressions

Now the equals sign. What has been read before it decides which rule of the grammar applies, or that none does. -/

/-- A disjunction without an equals sign behind it, or an assignment to a variable, to a property or to something else.
The last one is complained about, and derived where any target is allowed. -/
theorem assignment_answers (hend : Ended ts) (hself : Nests self ts.length) :
    (assignment self).Answers ts (Derived Level.assignment.Derives) := by
  refine (joined_answers .disjunction hend hself).bind fun w₁ target rest ds₁ hts hend h₁ => ?_
  refine answers_accept? hend (by decide) (fun equals rest' hrest hequals hend => ?_) fun _ => ?_
  · have hshort : rest'.length < ts.length := by
      rw [hts, hrest, List.length_append, List.length_cons]
      omega
    replace hequals : equals.kind = .equal := List.mem_singleton.mp hequals
    refine (hself rest' hend hshort).bind fun w₂ value rest'' ds₂ _ hend h₂ => ?_
    split
    · -- a variable is the only token of the left side
      refine .pure hend ⟨by simp [h₁.1, h₂.1], fun d hd => ?_⟩
      simp only [Dialect.excuses_append] at hd
      rename_i reference
      obtain ⟨rfl, hbare, hname⟩ := variable_target (h₁.2 d hd.1)
      rw [hbare]
      simpa [Level.Derives, Reference.bare] using Phrase.Derives.assign hname hequals (h₂.2 d hd.2.1)
    · refine .pure hend ⟨by simp [h₁.1, h₂.1], fun d hd => ?_⟩
      simp only [Dialect.excuses_append] at hd
      -- the dot and the name of a property are the last tokens of the left side
      obtain ⟨w', dot, rfl, hdot, hname, hobject⟩ := property_target (h₁.2 d hd.1)
      simpa [Level.Derives] using Phrase.Derives.set hobject hdot hname hequals (h₂.2 d hd.2.1)
    · -- any other left side is complained about, and the dialects that excuse this derive it
      rename_i hvariable hget
      have hstep : (do reportOn equals .invalidAssignmentTarget; return target : Parser SourceExpr) rest''
          = ⟨.ok target, rest'', [.ofToken .parse .invalidAssignmentTarget equals]⟩ := rfl
      have hrelaxed : Dialect.relaxed.Excuses [.ofToken .parse .invalidAssignmentTarget equals] := by
        intro x hx
        obtain rfl := List.mem_singleton.mp hx
        rfl
      refine .result (w := []) rfl (by simp) hend hstep ⟨by simp [h₁.1, h₂.1, hrelaxed], fun d hd => ?_⟩
      simp only [Dialect.excuses_append] at hd
      have hany : d.anyTarget = true := hd.2.2 _ (List.mem_singleton_self _)
      simpa [Level.Derives] using Phrase.Derives.misplaced hany hvariable hget (h₁.2 d hd.1) hequals (h₂.2 d hd.2.1)
  · refine .pure hend ⟨by simpa using h₁.1, fun d hd => ?_⟩
    simpa [Level.Derives] using Phrase.Derives.disjunction (h₁.2 d (by simpa using hd))

/-- Each nested expression stands behind a token of its own. -/
theorem nests_nestedExpression (n : Nat) : Nests (nestedExpression n) n := by
  induction n with
  | zero => intro ts _ hlen; omega
  | succ n ih =>
    intro ts hend hlen
    have h := assignment_answers hend (ih.mono (Nat.le_of_lt_succ hlen))
    exact answers_look (q := assignment (nestedExpression n)) rfl h

/-- The bound is the number of tokens, which is enough. -/
theorem expression_answers (hend : Ended ts) : expression.Answers ts (Derived Expression) :=
  answers_sized (q := nestedExpression) (nests_nestedExpression _ ts hend (Nat.lt_succ_self _))

end Parser

end LoxLang
