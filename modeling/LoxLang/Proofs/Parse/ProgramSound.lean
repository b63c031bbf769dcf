import LoxLang.Proofs.Parse.ExpressionSound
import LoxLang.Proofs.Parse.Formed
import LoxLang.Proofs.Parse.LoopClauses

/-!
# What is read as a program is derived

* **`parse_answers`** — the parser answers on every list of tokens before an end token. Whatever it complained
  about, the statements that it returns are well-formed; in every dialect that excuses the complaints they are
  derived from the tokens.

A broken statement is passed over. That takes at least one token, so that the loops over statements have rounds
enough; and no dialect excuses the complaint about it.

Two things are said of each production, and with one rule for each way to compose parsers: that it comes to an answer,
and what the answer is derived from. `Gathered` puts the words of the parts together, and carries along what holds of
every token in them.
-/

namespace LoxLang

/-- Of a result with its tokens and the complaints: it is well-formed whatever the complaints are, and in every
dialect that excuses them it is derived from the tokens. -/
structure Gathered {α : Type} (F : (Token → Prop) → α → Prop) (D : Dialect → α → List Token → Prop)
    (w : List Token) (a : α) (ds : List Diagnostic) : Prop where
  formed : ∀ P : Token → Prop, (∀ t ∈ w, P t) → F P a
  derived : ∀ d : Dialect, d.Excuses ds → D d a w

/-- No `else` comes behind what is dangling. -/
def NoElse (dangling : Bool) (rest : List Token) : Prop :=
  dangling = true → ∀ t ∈ rest.head?, t.kind ≠ .else

/-- A complete statement may have an `else` behind it. -/
@[simp] theorem noElse_false (rest : List Token) : NoElse false rest := by
  intro h
  cases h

/-- A statement has been read. -/
def ReadStatement (w : List Token) (s : SourceStmt) (rest : List Token) (ds : List Diagnostic) : Prop :=
  w ≠ [] ∧ Gathered (fun P s => s.declared = [] ∧ s.Formed P)
    (fun d s w => ∃ o, (Clause.statement s o).Derives d w ∧ NoElse o rest) w s ds

/-- A declaration has been read. -/
def ReadDeclaration (w : List Token) (s : SourceStmt) (_rest : List Token) (ds : List Diagnostic) : Prop :=
  w ≠ [] ∧ Gathered Stmt.Formed (fun d s w => ∃ o, (Clause.declaration s o).Derives d w) w s ds

/-- A declaration has been read, or a broken one has been passed over. -/
def ReadOrPassed (w : List Token) (s? : Option SourceStmt) (_rest : List Token) (ds : List Diagnostic) :
    Prop :=
  w ≠ [] ∧ Gathered (fun P s? => ∀ s ∈ s?, Stmt.Formed P s)
    (fun d s? w => ∃ s o, s? = some s ∧ (Clause.declaration s o).Derives d w) w s? ds

/-- A statement is a declaration too, and what comes behind it does not matter there. -/
theorem ReadStatement.declaration {w rest : List Token} {s : SourceStmt} {ds : List Diagnostic}
    (h : ReadStatement w s rest ds) : ReadDeclaration w s rest ds := by
  obtain ⟨hne, hformed, hderived⟩ := h
  refine ⟨hne, fun P hP => (hformed P hP).2, fun d hd => ?_⟩
  obtain ⟨o, hs, -⟩ := hderived d hd
  exact ⟨o, .statement hs⟩

namespace Parser

variable {α : Type} {ts : List Token}

/-! ## Repetition

The loops of the parser have bounds. That a loop never ends at its bound is shown here once, from each item taking a
token. -/

/-- Items while a test of the token in front holds. The rounds suffice because each item takes a token. -/
theorem whileM_answers (go : Token → Bool) {more : Parser Bool} {item : Parser α}
    {F : (Token → Prop) → α → Prop} {D : Dialect → α → List Token → Prop}
    {L : Dialect → List α → List Token → Prop} {m : Nat}
    (hmore : ∀ t ts, more (t :: ts) = ⟨.ok (go t), t :: ts, []⟩)
    (hnil : ∀ d, L d [] [])
    (hcons : ∀ d a as w₁ w₂, D d a w₁ → L d as w₂ → L d (a :: as) (w₁ ++ w₂))
    (hitem : ∀ t ts, go t = true → Ended (t :: ts) → (t :: ts).length < m →
      item.Answers (t :: ts) fun w a _ ds => w ≠ [] ∧ Gathered F D w a ds) (n : Nat) :
    ∀ {ts : List Token}, Ended ts → ts.length < n → ts.length < m →
      (whileM more item n).Answers ts fun w as rest ds =>
        (∀ t ∈ rest.head?, go t = false) ∧ Gathered (fun P as => ∀ a ∈ as, F P a) L w as ds := by
  induction n with
  | zero => intro ts _ hlen; omega
  | succ n ih =>
    intro ts hend hlen hm
    obtain ⟨t, ts, rfl⟩ := hend.exists_cons
    refine answers_look (bind_ok (hmore t ts)) ?_
    cases hgo : go t with
    | false =>
      refine .pure hend ⟨by simpa using hgo, fun P _ a ha => ?_, fun d _ => hnil d⟩
      cases ha
    | true =>
      refine (hitem t ts hgo hend hm).bind fun w₁ a rest ds₁ hts hend h₁ => ?_
      -- the item has taken a token
      have hshort : rest.length < (t :: ts).length := by
        rw [hts, List.length_append]
        have := List.length_pos_iff.mpr h₁.1
        omega
      refine (ih hend (by omega) (by omega)).bind fun w₂ as rest' ds₂ _ hend h₂ => ?_
      refine .pure hend ⟨h₂.1, fun P hP => ?_, fun d hd => ?_⟩
      · intro b hb
        rcases List.mem_cons.mp hb with rfl | hb
        · exact h₁.2.formed P (fun u hu => hP u (by simp [hu]))
        · exact h₂.2.formed P (fun u hu => hP u (by simp [hu])) b hb
      · simp only [Dialect.excuses_append] at hd
        simpa using hcons d a as w₁ w₂ (h₁.2.derived d hd.1) (h₂.2.derived d hd.2.1)

/-! ## Recovery

Recovery ends in front of a token that was in the list: at the latest this is the end token, which is never dropped. -/

/-- The next statement is found, however far away it is. -/
theorem nextStatement_answers (previous : Token) :
    ∀ {ts : List Token}, Ended ts → ∃ w rest, ts = w ++ rest ∧ (∀ t ∈ w, t.kind ≠ .eof) ∧ Ended rest ∧
      nextStatement previous ts = ⟨.ok (), rest, []⟩ := by
  intro ts hend
  induction ts generalizing previous with
  | nil => obtain ⟨t, ts, h⟩ := hend.exists_cons; cases h
  | cons t ts ih =>
    unfold nextStatement
    by_cases ht : t.kind = .eof ∨ previous.kind = .semicolon ∨ t.kind ∈ statementStarts
    · rw [if_pos ht]
      exact ⟨[], t :: ts, rfl, by simp, hend, rfl⟩
    · have hne : t.kind ≠ .eof := fun h => ht (.inl h)
      rw [if_neg ht]
      obtain ⟨w, rest, rfl, hw, hrest, hnext⟩ := ih t (hend.tail hne)
      refine ⟨t :: w, rest, rfl, ?_, hrest, hnext⟩
      intro u hu
      rcases List.mem_cons.mp hu with rfl | hu
      · exact hne
      · exact hw u hu

/-- To recover takes a token unless the end is in front. -/
theorem synchronize_answers (hend : Ended ts) :
    ∃ w rest, ts = w ++ rest ∧ (∀ t ∈ w, t.kind ≠ .eof) ∧ Ended rest ∧
      synchronize ts = ⟨.ok (), rest, []⟩ ∧ ((∀ t ∈ ts.head?, t.kind ≠ .eof) → w ≠ []) := by
  obtain ⟨t, ts, rfl⟩ := hend.exists_cons
  by_cases ht : t.kind = .eof
  · rw [synchronize, if_pos ht]
    exact ⟨[], t :: ts, rfl, by simp, hend, rfl, fun h => absurd ht (h t (by simp))⟩
  · rw [synchronize, if_neg ht]
    obtain ⟨w, rest, rfl, hw, hrest, hnext⟩ := nextStatement_answers t (hend.tail ht)
    refine ⟨t :: w, rest, rfl, ?_, hrest, hnext, fun _ => List.cons_ne_nil t w⟩
    intro u hu
    rcases List.mem_cons.mp hu with rfl | hu
    · exact ht
    · exact hw u hu

/-- A declaration that was read is handed on. One that was given up leaves nothing, and its complaint is excused by no
dialect; in both cases a token was taken. -/
theorem orSynchronize_answers {p : Parser SourceStmt} {t : Token} {ts : List Token}
    (ht : t.kind ≠ .eof) (hp : p.Answers (t :: ts) ReadDeclaration) :
    (orSynchronize p).Answers (t :: ts) ReadOrPassed := by
  cases hp with
  | @result w rest s ds hts hw hrest hp hQ =>
    have hstep : orSynchronize p (t :: ts) = ⟨.ok (some s), rest, ds⟩ := by
      unfold orSynchronize
      rw [hp]
    refine .result hts hw hrest hstep ⟨hQ.1, fun P hP s' hs => ?_, fun d hd => ?_⟩
    · obtain rfl := Option.mem_some_iff.mp hs
      exact hQ.2.formed P hP
    · obtain ⟨o, hs⟩ := hQ.2.derived d hd
      exact ⟨s, o, rfl, hs⟩
  -- behind a mismatch tokens are passed up to the next statement
  | @mismatch w rest ds hts hw hrest hp hds =>
    obtain ⟨w', rest', rfl, hw', hrest', hsync, hne⟩ := synchronize_answers hrest
    have hstep : orSynchronize p (t :: ts) = ⟨.ok none, rest', ds⟩ := by
      unfold orSynchronize
      rw [hp]
      simp only [hsync]
      rfl
    have hall : ∀ u ∈ w ++ w', u.kind ≠ .eof := by
      intro u hu
      rcases List.mem_append.mp hu with hu | hu
      · exact hw u hu
      · exact hw' u hu
    refine .result (by rw [hts, List.append_assoc]) hall hrest' hstep ⟨?_, fun P _ s hs => ?_, fun d hd => ?_⟩
    · -- either something was read before the mismatch or the first token is passed
      intro hnil
      obtain ⟨rfl, rfl⟩ := List.append_eq_nil_iff.mp hnil
      refine hne (fun u hu => ?_) rfl
      rw [List.nil_append] at hts
      rw [← hts, List.head?_cons, Option.mem_some_iff] at hu
      exact hu ▸ ht
    · cases hs
    · exact absurd hd.relaxed hds

/-! ## Simple statements

Production by production, along the definition of the parser. The tokens that were read are gathered into those of the
sentence, and the complaints of the parts into those of the whole. -/

/-- What is known of an expression, in the form that statements need. -/
theorem Gathered.expression {w rest : List Token} {e : SourceExpr} {ds : List Diagnostic}
    (h : Derived Expression w e rest ds) : Gathered Expr.Formed Expression w e ds :=
  ⟨fun _ hP => (h.2 _ h.1).formed hP, h.2⟩

/-- A declaration with or without an initializer, behind its keyword. -/
theorem varDeclaration_answers {var : Token} (hvar : var.kind = .var) (hend : Ended ts) :
    varDeclaration.Answers ts fun w s _ ds =>
      Gathered Stmt.Formed VariableDeclaration (var :: w) s ds := by
  refine answers_expect hend (by decide) fun name ts _ hname hend => ?_
  refine answers_accept hend (by decide) (fun equals ts _ hequals hend => ?_) fun _ => ?_
  · refine (expression_answers hend).bind fun w e rest ds _ hend h => ?_
    refine answers_expect hend (by decide) fun semicolon rest _ hsemicolon hend => ?_
    have he := Gathered.expression h
    refine .pure hend ⟨fun P hP => ⟨⟨hname, hP _ (by simp)⟩, ?_⟩, fun d hd => ?_⟩
    · exact he.formed P fun t ht => hP t (by simp [ht])
    · exact .initialized hvar hname hequals (he.derived d (by simpa using hd)) hsemicolon
  · refine answers_expect hend (by decide) fun semicolon rest _ hsemicolon hend => ?_
    refine .pure hend ⟨fun P hP => ⟨⟨hname, hP _ (by simp)⟩, trivial⟩, fun d _ => ?_⟩
    exact .plain hvar hname hsemicolon

theorem expressionStatement_answers (hend : Ended ts) :
    expressionStatement.Answers ts fun w s _ ds =>
      w ≠ [] ∧ Gathered (fun P s => s.declared = [] ∧ s.Formed P) ExpressionStatement w s ds := by
  refine (expression_answers hend).bind fun w e rest ds _ hend h => ?_
  refine answers_expect hend (by decide) fun semicolon rest _ hsemicolon hend => ?_
  have he := Gathered.expression h
  refine .pure hend ⟨by simp, fun P hP => ⟨rfl, ?_⟩, fun d hd => ?_⟩
  · exact he.formed P fun t ht => hP t (by simp [ht])
  · exact .mk (he.derived d (by simpa using hd)) hsemicolon

/-- The clause is missing if the token that ends it is in front. -/
theorem expressionUnless_answers {kind : Kind} (hend : Ended ts) :
    (expressionUnless kind).Answers ts fun w e? _ ds =>
      Gathered (fun P e? => Expr.OptionFormed P e?) OptionalExpression w e? ds := by
  refine answers_check hend (fun _ => ?_) fun _ => ?_
  · exact .pure hend ⟨fun _ _ => trivial, fun _ _ => .none⟩
  · refine (expression_answers hend).bind fun w e rest ds _ hend h => ?_
    have he := Gathered.expression h
    refine .pure hend ⟨fun P hP => ?_, fun d hd => ?_⟩
    · exact he.formed P fun t ht => hP t (by simp [ht])
    · simpa using OptionalExpression.some (he.derived d (by simpa using hd))

/-- Nothing, a declaration or an expression, by the token in front. -/
theorem loopInitializer_answers (hend : Ended ts) :
    loopInitializer.Answers ts fun w s? _ ds =>
      Gathered (fun P s? => ∀ s ∈ s?, Stmt.Formed P s) LoopInitializer w s? ds := by
  refine answers_accept hend (by decide) (fun semicolon ts _ hsemicolon hend => ?_) fun _ => ?_
  · refine .pure hend ⟨fun P _ s hs => ?_, fun _ _ => .none hsemicolon⟩
    cases hs
  refine answers_accept hend (by decide) (fun var ts _ hvar hend => ?_) fun _ => ?_
  · refine (varDeclaration_answers hvar hend).bind fun w s rest ds _ hend h => ?_
    refine .pure hend ⟨fun P hP s' hs => ?_, fun d hd => ?_⟩
    · obtain rfl := Option.mem_some_iff.mp hs
      exact h.formed P fun t ht => hP t (by simpa using ht)
    · simpa using LoopInitializer.var (h.derived d (by simpa using hd))
  · refine (expressionStatement_answers hend).bind fun w s rest ds _ hend h => ?_
    refine .pure hend ⟨fun P hP s' hs => ?_, fun d hd => ?_⟩
    · obtain rfl := Option.mem_some_iff.mp hs
      exact (h.2.formed P fun t ht => hP t (by simpa using ht)).2
    · simpa using LoopInitializer.expression (h.2.derived d (by simpa using hd))

/-- An expression and its semicolon, behind the keyword. -/
theorem printStatement_answers {keyword : Token} (hkeyword : keyword.kind = .print) (hend : Ended ts) :
    printStatement.Answers ts fun w => ReadStatement (keyword :: w) := by
  refine (expression_answers hend).bind fun w e rest ds _ hend h => ?_
  refine answers_expect hend (by decide) fun semicolon rest _ hsemicolon hend => ?_
  have he := Gathered.expression h
  refine .pure hend ⟨by simp, fun P hP => ⟨rfl, ?_⟩, fun d hd => ⟨false, ?_, noElse_false _⟩⟩
  · exact he.formed P fun t ht => hP t (by simp [ht])
  · exact .printing hkeyword (he.derived d (by simpa using hd)) hsemicolon

/-- The value may be missing, which is seen by the semicolon. -/
theorem returnStatement_answers {keyword : Token} (hkeyword : keyword.kind = .return) (hend : Ended ts) :
    (returnStatement keyword).Answers ts fun w => ReadStatement (keyword :: w) := by
  refine (expressionUnless_answers hend).bind fun w e? rest ds _ hend h => ?_
  refine answers_expect hend (by decide) fun semicolon rest _ hsemicolon hend => ?_
  refine .pure hend ⟨by simp, fun P hP => ⟨rfl, ?_⟩, fun d hd => ⟨false, ?_, noElse_false _⟩⟩
  · exact h.formed P fun t ht => hP t (by simp [ht])
  · exact .returning hkeyword (h.derived d (by simpa using hd)) hsemicolon

/-! ## Statements with a body

Of the body only this is known, that the parser answers on shorter lists. What comes behind a statement matters to its
last part: a body that dangles must not have an `else` behind it, and neither must the whole. -/

section Bodies

variable {statement : Parser SourceStmt} {n : Nat}

/-- A parser of statements does its work on lists shorter than `n`. -/
def Stands (statement : Parser SourceStmt) (n : Nat) : Prop :=
  ∀ ts, Ended ts → ts.length < n → statement.Answers ts ReadStatement

/-- The loop dangles if its body does. -/
theorem whileStatement_answers {keyword : Token} (hkeyword : keyword.kind = .while)
    (hstatement : Stands statement n) (hend : Ended ts) (hlen : ts.length < n) :
    (whileStatement statement).Answers ts fun w => ReadStatement (keyword :: w) := by
  refine answers_expect hend (by decide) fun open' ts' hts hopen hend => ?_
  refine (expression_answers hend).bind fun w₁ e rest ds₁ hts' hend h => ?_
  refine answers_expect hend (by decide) fun close rest' hrest hclose hend => ?_
  have he := Gathered.expression h
  have hshort : rest'.length < n := by
    rw [hts, hts', hrest] at hlen
    simp only [List.length_cons, List.length_append] at hlen
    omega
  refine (hstatement _ hend hshort).bind fun w₂ body rest ds₂ _ hend hbody => ?_
  refine .pure hend ⟨by simp, fun P hP => ⟨?_, ?_, ?_⟩, fun d hd => ?_⟩
  · exact (hbody.2.formed P fun t ht => hP t (by simp [ht])).1
  · exact he.formed P fun t ht => hP t (by simp [ht])
  · exact hbody.2.formed P fun t ht => hP t (by simp [ht])
  · simp only [Dialect.excuses_append] at hd
    obtain ⟨o, hs, hno⟩ := hbody.2.derived d hd.2.1
    refine ⟨o, ?_, hno⟩
    simpa using Clause.Derives.whileLoop hkeyword hopen (he.derived d hd.1) hclose hs

/-- Clauses of a loop have been read. -/
def ReadClauses (w : List Token) (loop : ForLoop Unit) (rest : List Token) (ds : List Diagnostic) : Prop :=
  Gathered (fun P loop => loop.body.declared = [] ∧ loop.block.Formed P)
    (fun d loop w => ∃ o, loop.Written d o w ∧ NoElse o rest) w loop ds

/-- The three clauses and the body are read one after the other. Each of them may be missing except the body. -/
theorem forClauses_answers (hstatement : Stands statement n) (hend : Ended ts) (hlen : ts.length < n) :
    (forClauses statement).Answers ts ReadClauses := by
  refine answers_expect hend (by decide) fun open' ts₁ hts hopen hend => ?_
  refine (loopInitializer_answers hend).bind fun w₁ initializer rest₁ ds₁ hts₁ hend h₁ => ?_
  refine (expressionUnless_answers hend).bind fun w₂ condition rest₂ ds₂ hts₂ hend h₂ => ?_
  refine answers_expect hend (by decide) fun semicolon rest₃ hrest₂ hsemicolon hend => ?_
  refine (expressionUnless_answers hend).bind fun w₃ increment rest₄ ds₃ hts₃ hend h₃ => ?_
  refine answers_expect hend (by decide) fun close rest₅ hrest₄ hclose hend => ?_
  -- nesting is bounded by the number of tokens, and the body has fewer
  have hshort : rest₅.length < n := by
    rw [hts, hts₁, hts₂, hrest₂, hts₃, hrest₄] at hlen
    simp only [List.length_cons, List.length_append] at hlen
    omega
  refine (hstatement _ hend hshort).bind fun w₄ body rest ds₄ _ hend hbody => ?_
  refine .pure hend ⟨fun P hP => ?_, fun d hd => ?_⟩
  · have hinitializer := h₁.formed P fun t ht => hP t (by simp [ht])
    have hcondition := h₂.formed P fun t ht => hP t (by simp [ht])
    have hincrement := h₃.formed P fun t ht => hP t (by simp [ht])
    have hbody := hbody.2.formed P fun t ht => hP t (by simp [ht])
    refine ⟨hbody.1, Stmt.allFormed_iff.mpr fun s hs => ?_⟩
    rcases List.mem_append.mp hs with hs | hs
    · exact hinitializer s (by simpa using hs)
    obtain rfl := List.mem_singleton.mp hs
    refine ⟨?_, ?_⟩
    · cases condition with
      | none => exact trivial
      | some e => exact hcondition
    · cases increment with
      | none => exact hbody
      | some e => exact ⟨rfl, hbody.2, hincrement, trivial⟩
  · simp only [Dialect.excuses_append] at hd
    obtain ⟨o, hs, hno⟩ := hbody.2.derived d hd.2.2.2.1
    refine ⟨o, ?_, hno⟩
    simpa using ForLoop.Written.mk hopen (h₁.derived d hd.1) (h₂.derived d hd.2.1) hsemicolon
      (h₃.derived d hd.2.2.1) hclose hs

/-- The tree is made of the clauses when all of them have been read. -/
theorem forStatement_answers {keyword : Token} (hkeyword : keyword.kind = .for)
    (hstatement : Stands statement n) (hend : Ended ts) (hlen : ts.length < n) :
    (forStatement statement).Answers ts fun w => ReadStatement (keyword :: w) := by
  rw [forStatement_eq]
  refine (forClauses_answers hstatement hend hlen).bind fun w loop rest ds _ hend h => ?_
  refine .pure hend ⟨by simp, fun P hP => ⟨rfl, ?_⟩, fun d hd => ?_⟩
  · exact (h.formed P fun t ht => hP t (by simp [ht])).2
  · obtain ⟨o, hwritten, hno⟩ := h.derived d (by simpa using hd)
    exact ⟨o, by simpa using hwritten.derives hkeyword, hno⟩

/-- The branch that is read first takes an `else` if there is one; so it is not dangling before an `else`. -/
theorem ifStatement_answers {keyword : Token} (hkeyword : keyword.kind = .if)
    (hstatement : Stands statement n) (hend : Ended ts) (hlen : ts.length < n) :
    (ifStatement statement).Answers ts fun w => ReadStatement (keyword :: w) := by
  refine answers_expect hend (by decide) fun open' ts' hts hopen hend => ?_
  refine (expression_answers hend).bind fun w₁ e rest ds₁ hts' hend h => ?_
  refine answers_expect hend (by decide) fun close rest₁ hrest hclose hend => ?_
  have he := Gathered.expression h
  have hshort : rest₁.length < n := by
    rw [hts, hts', hrest] at hlen
    simp only [List.length_cons, List.length_append] at hlen
    omega
  refine (hstatement _ hend hshort).bind fun w₂ thenBranch rest₂ ds₂ hts₂ hend hthen => ?_
  refine answers_accept hend (by decide) (fun else' rest₃ hrest₂ helse hend => ?_) fun hno => ?_
  · have hshort : rest₃.length < n := by
      rw [hts₂, hrest₂] at hshort
      simp only [List.length_cons, List.length_append] at hshort
      omega
    refine (hstatement _ hend hshort).bind fun w₃ elseBranch rest ds₃ _ hend hbranch => ?_
    refine .pure hend ⟨by simp, fun P hP => ?_, fun d hd => ?_⟩
    · have hthen := hthen.2.formed P fun t ht => hP t (by simp [ht])
      have hbranch := hbranch.2.formed P fun t ht => hP t (by simp [ht])
      refine ⟨by simp [Stmt.declared, hthen.1, hbranch.1], ?_, hthen, hbranch⟩
      exact he.formed P fun t ht => hP t (by simp [ht])
    · simp only [Dialect.excuses_append] at hd
      obtain ⟨o₁, hs₁, hno₁⟩ := hthen.2.derived d hd.2.1
      obtain ⟨o₂, hs₂, hno₂⟩ := hbranch.2.derived d hd.2.2.1
      -- a branch that could take the `else` has taken it
      have hnearest : o₁ = false := by
        cases o₁ with
        | false => rfl
        | true => exact absurd helse (hno₁ rfl else' (by rw [hrest₂]; rfl))
      refine ⟨o₂, ?_, hno₂⟩
      simpa using Clause.Derives.ifElse hkeyword hopen (he.derived d hd.1) hclose hs₁
        (fun _ => hnearest) helse hs₂
  · refine .pure hend ⟨by simp, fun P hP => ?_, fun d hd => ?_⟩
    · have hthen := hthen.2.formed P fun t ht => hP t (by simp [ht])
      refine ⟨by simp [Stmt.declared, hthen.1], ?_, hthen, trivial⟩
      exact he.formed P fun t ht => hP t (by simp [ht])
    · simp only [Dialect.excuses_append] at hd
      obtain ⟨o, hs, -⟩ := hthen.2.derived d hd.2.1
      refine ⟨true, ?_, fun _ => hno⟩
      simpa using Clause.Derives.ifThen hkeyword hopen (he.derived d hd.1) hclose hs

end Bodies

/-! ## Blocks, functions and classes

A block is closed by its brace, so nothing in it dangles outside. -/

section Declarations

variable {declaration : Parser (Option SourceStmt)} {n : Nat}

/-- A parser of declarations does its work on lists shorter than `n`, unless the end is in front. -/
def Proceeds (declaration : Parser (Option SourceStmt)) (n : Nat) : Prop :=
  ∀ t ts, t.kind ≠ .eof → Ended (t :: ts) → (t :: ts).length < n →
    declaration.Answers (t :: ts) ReadOrPassed

/-- Declarations while a test of the token in front holds. -/
theorem declarations_answers (go : Token → Bool) {more : Parser Bool}
    (hmore : ∀ t ts, more (t :: ts) = ⟨.ok (go t), t :: ts, []⟩)
    (heof : ∀ t, go t = true → t.kind ≠ .eof) (hdeclaration : Proceeds declaration n) (hend : Ended ts)
    (hlen : ts.length < n) :
    (sized (whileM more declaration)).Answers ts fun w ss rest ds =>
      (∀ t ∈ rest.head?, go t = false) ∧
        Gathered (fun P ss => Stmt.AllFormed P (ss.filterMap id))
          (fun d ss w => (Clause.declarations (ss.filterMap id)).Derives d w) w ss ds := by
  -- a declaration that was passed leaves nothing in the list, and no dialect derives it
  have h := whileM_answers go
    (L := fun d ss w => (Clause.declarations (ss.filterMap id)).Derives d w) hmore (fun d => .noDeclaration)
    (fun d s? ss w₁ w₂ hs hss => ?_) (fun t ts hgo => hdeclaration t ts (heof t hgo)) (ts.length + 1) hend
    (by omega) hlen
  · refine answers_sized (q := whileM more declaration) (h.mono fun w ss rest ds _ _ hss => ?_)
    refine ⟨hss.1, fun P hP => Stmt.allFormed_iff.mpr fun s hs => ?_, hss.2.derived⟩
    obtain ⟨s?, hmem, rfl⟩ := List.mem_filterMap.mp hs
    exact hss.2.formed P hP _ hmem s rfl
  · obtain ⟨s, o, rfl, hs⟩ := hs
    exact .moreDeclarations hs hss

/-- Declarations up to the brace. At the end token the brace is missing, which is complained about. -/
theorem block_answers (hdeclaration : Proceeds declaration n) (hend : Ended ts) (hlen : ts.length < n) :
    (block declaration).Answers ts fun w ss _ ds =>
      Gathered Stmt.AllFormed (fun d ss w => ∃ w' close, w = w' ++ [close] ∧ close.kind = .rightBrace ∧
        (Clause.declarations ss).Derives d w') w ss ds := by
  have hinside : ∀ t : Token, (t.kind != .rightBrace && t.kind != .eof) = true → t.kind ≠ .eof := by
    intro t ht
    simp only [Bool.and_eq_true, bne_iff_ne] at ht
    exact ht.2
  refine (declarations_answers _ (fun _ _ => rfl) hinside hdeclaration hend hlen).bind
    fun w ss rest ds _ hend h => ?_
  refine answers_expect hend (by decide) fun close rest _ hclose hend => ?_
  refine .pure hend ⟨fun P hP => ?_, fun d hd => ⟨w, close, rfl, hclose, ?_⟩⟩
  · exact h.2.formed P fun t ht => hP t (by simp [ht])
  · exact h.2.derived d (by simpa using hd)

/-- Parameters are identifiers with commas. More of them than are allowed derive a list in the dialects without that
limit. -/
theorem params_answers (hend : Ended ts) :
    (untilParen (.tooManyParameters (toString maxArguments)) (expect .identifier "parameter name")).Answers
      ts (Derived fun d ps w => Parameters ps w ∧ d.Fits ps.length) := by
  refine untilParen_answers (D := fun _ p w => p.kind = .identifier ∧ w = [p])
    (L := fun _ ps w => ps ≠ [] ∧ Parameters ps w) (m := ts.length + 1) (fun _ => rfl) ?_ ?_
    (fun _ => .none) (fun _ _ _ h => h.2) ?_ hend (Nat.lt_succ_self _)
  · rintro _ p _ ⟨hp, rfl⟩
    exact ⟨by simp, .one hp⟩
  · rintro _ p ps comma _ w ⟨hp, rfl⟩ hcomma ⟨hne, hps⟩
    obtain ⟨q, qs, rfl⟩ := List.exists_cons_of_ne_nil hne
    exact ⟨by simp, .more hp hcomma hps⟩
  · intro ts hend _
    refine answers_accept? hend (by decide) (fun p ts hts hp hend => ?_) fun _ => ?_
    · exact .pure hend (.silent fun _ => ⟨by simpa using hp, rfl⟩)
    · exact answers_reject hend rfl

/-- The tokens of a list of parameters that are not commas. -/
theorem Parameters.identifiers {ps w : List Token} (h : Parameters ps w) :
    ∀ p ∈ ps, p.kind = .identifier ∧ p ∈ w := by
  induction h with
  | none => simp
  | one hp => simp [hp]
  | more hp _ _ ih =>
    intro p hmem
    rcases List.mem_cons.mp hmem with rfl | hmem
    · exact ⟨hp, by simp⟩
    · obtain ⟨hkind, hw⟩ := ih p hmem
      exact ⟨hkind, by simp [hw]⟩

/-- A function that was read has the form `name ( parameters ) { body }`, and its tree is made of the tokens between. -/
theorem function_answers (what : String) (hdeclaration : Proceeds declaration n) (hend : Ended ts)
    (hlen : ts.length < n) :
    (function declaration what).Answers ts fun w f _ ds =>
      w ≠ [] ∧ Gathered FunDecl.Formed (fun d f w => (Clause.function f).Derives d w) w f ds := by
  refine answers_expect hend (by decide) fun name ts₁ hts hname hend => ?_
  refine answers_expect hend (by decide) fun open' ts₂ hts₁ hopen hend => ?_
  refine (params_answers hend).bind fun w₁ params rest₁ ds₁ hts₂ hend hparams => ?_
  refine answers_expect hend (by decide) fun close rest₂ hrest₁ hclose hend => ?_
  refine answers_expect hend (by decide) fun open'' rest₃ hrest₂ hopen' hend => ?_
  -- the body is shorter than what the bound was given for, as tokens were taken before it
  have hshort : rest₃.length < n := by
    rw [hts, hts₁, hts₂, hrest₁, hrest₂] at hlen
    simp only [List.length_cons, List.length_append] at hlen
    omega
  refine (block_answers hdeclaration hend hshort).bind fun w₂ body rest ds₂ _ hend hbody => ?_
  refine .pure hend ⟨by simp, fun P hP => ⟨⟨hname, hP _ (by simp)⟩, ?_, ?_⟩, fun d hd => ?_⟩
  · intro p hp
    obtain ⟨hkind, hw⟩ := Parameters.identifiers (hparams.2 _ hparams.1).1 p hp
    exact ⟨hkind, hP p (by simp [hw])⟩
  · exact hbody.formed P fun t ht => hP t (by simp [ht])
  · simp only [Dialect.excuses_append] at hd
    obtain ⟨w', close', rfl, hclose', hss⟩ := hbody.derived d hd.2.1
    obtain ⟨hps, hfits⟩ := hparams.2 d hd.1
    simpa using Clause.Derives.function hname hopen hps hfits hclose hopen' hss hclose'

/-- A name, a superclass that may be missing, and methods up to the brace. -/
theorem classDeclaration_answers {keyword : Token} (hkeyword : keyword.kind = .class)
    (hdeclaration : Proceeds declaration n) (hend : Ended ts) (hlen : ts.length < n) :
    (classDeclaration declaration).Answers ts fun w => ReadDeclaration (keyword :: w) := by
  refine answers_expect hend (by decide) fun name ts₁ hts hname hend => ?_
  -- what follows after the superclass, if there is one
  have hbody : ∀ {heritage : Option (Reference Unit)} {w₁ ts : List Token}, Ended ts → ts.length < n →
      Heritage heritage w₁ →
      Answers (do
          let _ ← expect .leftBrace "'\x7b' before class body"
          let methods ← sized (whileM block.inside (function declaration "method"))
          let _ ← expect .rightBrace "'\x7d' after class body"
          return .class name heritage methods) ts
        fun w s rest ds => ReadDeclaration (keyword :: name :: (w₁ ++ w)) s rest ds := by
    intro heritage w₁ ts hend hlen hheritage
    refine answers_expect hend (by decide) fun open' ts₂ hts₂ hopen hend => ?_
    rw [hts₂, List.length_cons] at hlen
    have hinside : ∀ t ts, block.inside (t :: ts)
        = ⟨.ok (t.kind != .rightBrace && t.kind != .eof), t :: ts, []⟩ := fun _ _ => rfl
    have hmethods := whileM_answers _ hinside (L := fun d fs w => (Clause.functions fs).Derives d w)
      (fun d => .noFunction) (fun d f fs w₁ w₂ hf hfs => .moreFunctions hf hfs)
      (fun t ts _ hend hlen => function_answers "method" hdeclaration hend hlen) (ts₂.length + 1) hend
      (by omega) (m := n) (by omega)
    refine (answers_sized (q := whileM block.inside (function declaration "method")) hmethods).bind
      fun w₂ methods rest ds _ hend h => ?_
    refine answers_expect hend (by decide) fun close rest _ hclose hend => ?_
    refine .pure hend ⟨by simp, fun P hP => ⟨⟨hname, hP _ (by simp)⟩, ?_, ?_⟩, fun d hd => ⟨false, ?_⟩⟩
    · intro r hr
      cases hheritage with
      | none => cases hr
      | some _ hname' =>
        obtain rfl := Option.mem_some_iff.mp hr
        exact ⟨hname', hP _ (by simp)⟩
    · refine FunDecl.allFormed_iff.mpr ?_
      exact h.2.formed P fun t ht => hP t (by simp [ht])
    · simp only [Dialect.excuses_append] at hd
      simpa using Clause.Derives.classDeclaration hkeyword hname hheritage hopen (h.2.derived d hd.1) hclose
  rw [hts, List.length_cons] at hlen
  refine answers_accept hend (by decide) (fun less ts₂ hts₁ hless hend => ?_) fun _ => ?_
  · refine answers_expect hend (by decide) fun superclass ts₃ hts₂ hsuperclass hend => ?_
    rw [hts₁, hts₂, List.length_cons, List.length_cons] at hlen
    exact hbody hend (by omega) (.some hless hsuperclass)
  · exact hbody hend (by omega) .none

end Declarations

/-! ## Whole programs

The two parsers that call each other are taken together. The induction is on the bound on nesting, and the list is
shorter than the bound. -/

/-- The parsers of nested statements and declarations do their work on lists shorter than `n`. -/
structure Nested.Works (nested : Nested) (n : Nat) : Prop where
  statement : Stands nested.statement n
  declaration : Proceeds nested.declaration n

/-- By the kind of the token in front, as in the parser: a keyword is taken and its production follows; otherwise it is
an expression. -/
theorem statementWith_answers {nested : Nested} (hnested : nested.Works ts.length) (hend : Ended ts) :
    (statementWith nested).Answers ts ReadStatement := by
  refine answers_accept? hend (by decide) (fun keyword ts' hts hkeyword hend => ?_) fun _ => ?_
  · have hlen : ts'.length < ts.length := by
      rw [hts, List.length_cons]
      omega
    -- one case for each keyword; a brace is the last one
    dsimp only
    split
    · rename_i hk
      exact forStatement_answers hk hnested.statement hend hlen
    · rename_i hk
      exact ifStatement_answers hk hnested.statement hend hlen
    · rename_i hk
      exact printStatement_answers hk hend
    · rename_i hk
      exact returnStatement_answers hk hend
    · rename_i hk
      exact whileStatement_answers hk hnested.statement hend hlen
    · have hbrace : keyword.kind = .leftBrace := by simp_all
      refine (block_answers hnested.declaration hend hlen).bind fun w ss rest ds _ hend h => ?_
      refine .pure hend ⟨by simp, fun P hP => ⟨rfl, ?_⟩, fun d hd => ⟨false, ?_, noElse_false _⟩⟩
      · exact h.formed P fun t ht => hP t (by simp [ht])
      · obtain ⟨w', close, rfl, hclose, hss⟩ := h.derived d (by simpa using hd)
        simpa using Clause.Derives.block hbrace hss hclose
  · refine (expressionStatement_answers hend).mono fun w s rest ds _ _ h => ?_
    exact ⟨h.1, h.2.formed, fun d hd => ⟨false, .expression (h.2.derived d hd), noElse_false _⟩⟩

/-- By the kind of the token in front; without a keyword of a declaration it is a statement. -/
theorem declarationWith_answers {nested : Nested} (hnested : nested.Works ts.length) (hend : Ended ts) :
    (declarationWith nested).Answers ts ReadDeclaration := by
  refine answers_accept hend (by decide) (fun keyword ts' hts hkeyword hend => ?_) fun _ => ?_
  · refine classDeclaration_answers hkeyword hnested.declaration hend ?_
    rw [hts, List.length_cons]
    omega
  refine answers_accept hend (by decide) (fun keyword ts' hts hkeyword hend => ?_) fun _ => ?_
  · have hlen : ts'.length < ts.length := by
      rw [hts, List.length_cons]
      omega
    refine (function_answers _ hnested.declaration hend hlen).bind fun w f rest ds _ hend h => ?_
    refine .pure hend ⟨by simp, fun P hP => ?_, fun d hd => ⟨false, ?_⟩⟩
    · exact h.2.formed P fun t ht => hP t (by simp [ht])
    · simpa using Clause.Derives.functionDeclaration hkeyword (h.2.derived d (by simpa using hd))
  refine answers_accept hend (by decide) (fun keyword ts' hts hkeyword hend => ?_) fun _ => ?_
  · refine (varDeclaration_answers hkeyword hend).mono fun w s rest ds _ _ h => ?_
    exact ⟨by simp, h.formed, fun d hd => ⟨false, .variableDeclaration (h.derived d hd)⟩⟩
  · exact (statementWith_answers hnested hend).mono fun w s rest ds _ _ h => h.declaration

/-- Behind the first token the list is one shorter, so that the parsers of the next depth are called on lists short
enough. -/
theorem nested_works (n : Nat) : Nested.Works ⟨nestedStatement n, nestedDeclaration n⟩ n := by
  induction n with
  | zero => exact ⟨fun ts _ hlen => by omega, fun t ts _ _ hlen => by omega⟩
  | succ n ih =>
    -- what is nested less deep works on shorter lists
    have hworks : ∀ {m : Nat}, m ≤ n → Nested.Works ⟨nestedStatement n, nestedDeclaration n⟩ m := by
      intro m hmn
      exact ⟨fun ts hend hlen => ih.statement ts hend (by omega),
        fun t ts ht hend hlen => ih.declaration t ts ht hend (by omega)⟩
    refine ⟨fun ts hend hlen => ?_, fun t ts ht hend hlen => ?_⟩
    · have h := statementWith_answers (hworks (Nat.le_of_lt_succ hlen)) hend
      exact answers_look (q := statementWith ⟨nestedStatement n, nestedDeclaration n⟩) rfl h
    · have h := declarationWith_answers (hworks (Nat.le_of_lt_succ hlen)) hend
      exact answers_look (q := orSynchronize (declarationWith ⟨nestedStatement n, nestedDeclaration n⟩)) rfl
        (orSynchronize_answers ht h)

/-! A whole program is never given up: a broken declaration is passed over. -/

/-- A parser that does not give up because of a token that does not fit. -/
def Persists (p : Parser α) : Prop :=
  ∀ ts, (p ts).result ≠ .error .mismatch

/-- Neither of two parsers gives up. -/
theorem Persists.bind {β : Type} {p : Parser α} {f : α → Parser β} (hp : Persists p)
    (hf : ∀ a, Persists (f a)) : Persists (p >>= f) := by
  intro ts h
  have hbind : (p >>= f) ts = Parser.bind p f ts := rfl
  rw [hbind, Parser.bind] at h
  split at h
  · rename_i heq
    cases h
    exact hp ts (by rw [heq])
  · exact hf _ _ h

/-- Dropping tokens finds nothing that does not fit. -/
theorem persists_nextStatement (previous : Token) : Persists (nextStatement previous) := by
  intro ts
  induction ts generalizing previous with
  | nil => intro h; cases h
  | cons t ts ih =>
    unfold nextStatement
    split
    · intro h; cases h
    · exact ih t

/-- Nor does dropping one more before. -/
theorem persists_synchronize : Persists synchronize := by
  intro ts
  cases ts with
  | nil => intro h; cases h
  | cons t ts =>
    rw [synchronize]
    split
    · intro h; cases h
    · exact persists_nextStatement t ts

/-- A declaration that was given up is caught here. -/
theorem persists_orSynchronize (p : Parser SourceStmt) : Persists (orSynchronize p) := by
  intro ts h
  unfold orSynchronize at h
  split at h
  · cases h
  · rename_i rest _ _
    cases hr : (synchronize rest).result with
    | ok u => simp [hr, Except.map] at h
    | error e =>
      simp only [hr, Except.map, Except.error.injEq] at h
      exact persists_synchronize rest (by rw [hr, h])
  · rename_i hne _
    cases h
    exact hne rfl

/-- A loop does not give up if neither its test nor its items do. -/
theorem persists_whileM {more : Parser Bool} {item : Parser α} (hmore : Persists more)
    (hitem : Persists item) (n : Nat) : Persists (whileM more item n) := by
  induction n with
  | zero => intro ts h; cases h
  | succ n ih =>
    rw [whileM]
    refine hmore.bind fun go => ?_
    cases go with
    | false => intro ts h; cases h
    | true => exact hitem.bind fun a => ih.bind fun as ts h => by cases h

/-- A declaration is read or passed over. -/
theorem persists_declaration : Persists declaration :=
  fun ts => persists_orSynchronize (declarationWith ⟨nestedStatement ts.length, nestedDeclaration ts.length⟩) ts

/-- A look finds nothing that does not fit either. -/
theorem persists_notAtEnd : Persists (do return !(← atEnd) : Parser Bool) := by
  intro ts
  cases ts with
  | nil => intro h; cases h
  | cons t ts => intro h; cases h

end Parser

/-- Lists are split alike at their first end token. -/
theorem append_eof_unique {w w' rest : List Token} {eof : Token} (h : w ++ [eof] = w' ++ rest)
    (hw' : ∀ t ∈ w', t.kind ≠ .eof) (heof : eof.kind = .eof)
    (hw : ∀ t ∈ w, t.kind ≠ .eof) (hrest : ∀ t ∈ rest.head?, t.kind = .eof) : w' = w := by
  induction w generalizing w' with
  | nil =>
    cases w' with
    | nil => rfl
    | cons t w' =>
      obtain ⟨rfl, -⟩ := List.cons.inj h
      exact absurd heof (hw' eof (by simp))
  | cons u w ih =>
    cases w' with
    | nil =>
      rw [List.nil_append] at h
      rw [← h] at hrest
      exact absurd (hrest u rfl) (hw u (by simp))
    | cons t w' =>
      obtain ⟨rfl, htail⟩ := List.cons.inj h
      rw [ih htail (fun t ht => hw' t (by simp [ht])) (fun t ht => hw t (by simp [ht]))]

/-- Whatever the number of tokens, nested declarations are read. -/
theorem Parser.proceeds_declaration (n : Nat) : Parser.Proceeds Parser.declaration n := by
  intro t ts ht hend _
  refine Parser.answers_sized (q := Parser.nestedDeclaration) ?_
  exact (Parser.nested_works _).declaration t ts ht hend (Nat.lt_succ_self _)

/-- A program comes to its result on every list with an end token: it reads the tokens before the first one. -/
theorem program_ended {ts : List Token} (hend : Ended ts) :
    ∃ w rest ss ds, ts = w ++ rest ∧ (∀ t ∈ w, t.kind ≠ .eof) ∧ (∀ t ∈ rest.head?, t.kind = .eof) ∧
      Parser.program ts = ⟨.ok ss, rest, ds⟩ ∧ (∀ P, (∀ t ∈ w, P t) → Stmt.AllFormed P ss) ∧
        ∀ d : Dialect, d.Excuses ds → Program d ss w := by
  have hmore : ∀ t ts, (do return !(← Parser.atEnd) : Parser Bool) (t :: ts)
      = ⟨.ok (!(t.kind == .eof)), t :: ts, []⟩ := fun _ _ => rfl
  have h := Parser.declarations_answers _ hmore (fun t ht => by simpa using ht)
    (Parser.proceeds_declaration (ts.length + 1)) hend (Nat.lt_succ_self _)
  cases h with
  -- the loop goes on behind each mismatch
  | mismatch _ _ _ hp _ =>
    refine absurd ?_ (Parser.persists_whileM Parser.persists_notAtEnd Parser.persists_declaration
      (ts.length + 1) ts)
    exact congrArg Reply.result hp
  | @result w rest ss ds hts hw hrest hp hQ =>
    have hprogram : Parser.program ts = ⟨.ok (ss.filterMap id), rest, ds ++ []⟩ := Parser.bind_ok' hp rfl
    rw [List.append_nil] at hprogram
    exact ⟨w, rest, ss.filterMap id, ds, hts, hw, by simpa using hQ.1, hprogram, hQ.2.formed, hQ.2.derived⟩

/-- The parser answers on every list with an end token. -/
theorem parse_ended {ts : List Token} (hend : Ended ts) :
    ∃ w rest ss ds, ts = w ++ rest ∧ (∀ t ∈ w, t.kind ≠ .eof) ∧ (∀ t ∈ rest.head?, t.kind = .eof) ∧
      parse ts = some ⟨ss, ds⟩ ∧ (∀ P, (∀ t ∈ w, P t) → Stmt.AllFormed P ss) ∧
        ∀ d : Dialect, d.Excuses ds → Program d ss w := by
  obtain ⟨w, rest, ss, ds, hts, hw, hrest, hprogram, hderived⟩ := program_ended hend
  exact ⟨w, rest, ss, ds, hts, hw, hrest, by rw [parse, hprogram], hderived⟩

/-- The parser answers on every list before an end token, with well-formed statements; these are derived from
the tokens in every dialect that excuses the complaints. -/
theorem parse_answers {w : List Token} {eof : Token} (hw : ∀ t ∈ w, t.kind ≠ .eof)
    (heof : eof.kind = .eof) :
    ∃ ss ds, parse (w ++ [eof]) = some ⟨ss, ds⟩ ∧ (∀ P, (∀ t ∈ w, P t) → Stmt.AllFormed P ss) ∧
      ∀ d : Dialect, d.Excuses ds → Program d ss w := by
  have hend : Ended (w ++ [eof]) := ⟨eof, by simp, heof⟩
  obtain ⟨w', rest, ss, ds, hts, hw', hrest, hparse, hformed, hderived⟩ := parse_ended hend
  obtain rfl : w' = w := append_eof_unique hts hw' heof hw hrest
  exact ⟨ss, ds, hparse, hformed, hderived⟩

end LoxLang
