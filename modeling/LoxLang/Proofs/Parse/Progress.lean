import LoxLang.Proofs.Parse.Prolonged

/-!
# The parser proceeds

* **`Parser.declaration_eq`** and its kin — on lists with an end token the bounds on nesting do not matter: each parser
  satisfies its own equation.
* **`parser_stays_within_input`** — what is read of a list with an end token, and how declarations proceed in it.
-/

namespace LoxLang

namespace Parser

variable {α : Type} {ts : List Token} {N : Nat}

/-! ## Bounds that do not matter

The definitions count nesting by the length of the list, since they have to end. On a list with an end token each parser
satisfies the equation that one would write down without that. -/

/-- A parser that answers does not come past the end. -/
theorem Answers.result_ne_pastEnd {p : Parser α} {Q : List Token → α → List Token → List Diagnostic → Prop}
    (h : p.Answers ts Q) : (p ts).result ≠ .error .pastEnd := by
  intro heq
  cases h with
  | result _ _ _ hp | mismatch _ _ _ hp =>
    rw [hp] at heq
    cases heq

/-- A parser and one that prolongs it do the same, unless they come past the end. -/
theorem Prolongs.eq {p q : Parser α} (h : Prolongs ts [] N p q) (hlen : ts.length < N)
    (hresult : (p ts).result ≠ .error .pastEnd) : p ts = q ts := by
  have hgrows := h.grows ts (by rw [List.append_nil]; exact List.Subset.refl ts) hlen
  rw [List.append_nil] at hgrows
  cases hgrows with
  | same _ _ hreply => rw [hreply, List.append_nil]
  | further hfailure => exact absurd hfailure hresult

/-- Statements and declarations of any depth. -/
abbrev whole : Nested :=
  ⟨statement, declaration⟩

/-- The parsers without bounds answer at every depth. -/
theorem works_whole (n : Nat) : whole.Works n := by
  refine ⟨fun ts hend _ => ?_, proceeds_declaration n⟩
  refine answers_sized (q := nestedStatement) ?_
  exact (nested_works _).statement ts hend (Nat.lt_succ_self _)

/-- A bound that exceeds the number of tokens is as good as the number itself. -/
theorem prolongs_nestedStatement (U : List Token) : Prolongs U [] N statement (nestedStatement N) := by
  refine ⟨(tame_nested N).1, fun ts hts hlen => ?_⟩
  exact ((nested_prolonging (ts.length + 1)).statement U [] N hlen).grows ts hts (Nat.lt_succ_self _)

/-- With no further tokens at all, prolonging compares the parser with itself at another bound. -/
theorem prolongs_nestedDeclaration (U : List Token) : Prolongs U [] N declaration (nestedDeclaration N) := by
  refine ⟨(tame_nested N).2, fun ts hts hlen => ?_⟩
  exact ((nested_prolonging (ts.length + 1)).declaration U [] N hlen).grows ts hts (Nat.lt_succ_self _)

/-- A statement is read with statements and declarations inside. -/
theorem statement_eq (hend : Ended ts) : statement ts = statementWith whole ts := by
  have h : Prolongs ts [] (ts.length + 1) (statementWith whole)
      (statementWith ⟨nestedStatement ts.length, nestedDeclaration ts.length⟩) :=
    prolongs_statementWith (prolongs_nestedStatement ts) (prolongs_nestedDeclaration ts) advances_declaration
  have hanswers := statementWith_answers (works_whole ts.length) hend
  exact (h.eq (Nat.lt_succ_self _) hanswers.result_ne_pastEnd).symm

/-- A method takes a token. -/
theorem advances_method : Advances (function declaration "method") N := by
  refine advances_of_answers (fun U eof => prolongs_function prolongs_declaration advances_declaration "method")
    fun t ts _ hend hlen => ?_
  exact (function_answers "method" (proceeds_declaration (N + 1)) hend hlen).mono fun _ _ _ _ _ _ h => h.1

/-- A declaration is read with statements and declarations inside, and with recovery around it. -/
theorem declaration_eq (hend : Ended ts) : declaration ts = orSynchronize (declarationWith whole) ts := by
  have h : Prolongs ts [] (ts.length + 1) (declarationWith whole)
      (declarationWith ⟨nestedStatement ts.length, nestedDeclaration ts.length⟩) :=
    prolongs_declarationWith (prolongs_nestedStatement ts) (prolongs_nestedDeclaration ts) advances_declaration
      advances_method
  have hanswers := declarationWith_answers (works_whole ts.length) hend
  have heq := h.eq (Nat.lt_succ_self _) hanswers.result_ne_pastEnd
  change orSynchronize (declarationWith ⟨nestedStatement ts.length, nestedDeclaration ts.length⟩) ts = _
  unfold orSynchronize
  rw [heq]

/-- An expression is read with expressions inside. -/
theorem expression_eq (hend : Ended ts) : expression ts = assignment expression ts := by
  have hnested : Prolongs ts [] ts.length expression (nestedExpression ts.length) := by
    refine ⟨tame_nestedExpression _, fun us hus hlen => ?_⟩
    exact (prolongs_nestedExpression (r := []) (us.length + 1) ts.length hlen).grows us hus (Nat.lt_succ_self _)
  have h : Prolongs ts [] (ts.length + 1) (assignment expression) (assignment (nestedExpression ts.length)) :=
    prolongs_assignment hnested
  have hanswers := assignment_answers hend fun us hend' _ => expression_answers hend'
  exact (h.eq (Nat.lt_succ_self _) hanswers.result_ne_pastEnd).symm

/-- Further tokens behind the list do not matter, unless the list comes to its end. -/
theorem program_append {result : Except ParseFailure (List SourceStmt)} {rest : List Token} {ds : List Diagnostic}
    (h : program ts = ⟨result, rest, ds⟩) (hresult : result ≠ .error .pastEnd) (r : List Token) :
    program (ts ++ r) = ⟨result, rest ++ r, ds⟩ := by
  have hgrows := (prolongs_program (N := ts.length + 1)).grows ts (List.Subset.refl (ts ++ r)) (Nat.lt_succ_self _)
  rw [h] at hgrows
  cases hgrows with
  | same _ _ hreply => exact hreply
  | further hfailure => exact absurd hfailure hresult

/-- Without an end token there is no result. With one behind the list there would be the same result. -/
theorem program_unended (hnone : ∀ t ∈ ts, t.kind ≠ .eof) : (program ts).result = .error .pastEnd := by
  by_contra hresult
  let eof : Token := ⟨.eof, "", .nil, 1⟩
  have hend : Ended (ts ++ [eof]) := ⟨eof, by simp, rfl⟩
  obtain ⟨w, rest, ss, ds, -, -, -, hprogram, -⟩ := program_ended hend
  rcases hts : program ts with ⟨result, rest', ds'⟩
  rw [hts] at hresult
  rw [program_append hts hresult [eof]] at hprogram
  cases hprogram
  -- so the list would be parsed, and have an end token
  have hparse : parse ts = some ⟨ss, ds⟩ := by rw [parse, hts]
  obtain ⟨t, ht, heof⟩ := ended_of_parse hparse
  exact hnone t ht heof

end Parser

/-- **The parser stays within its input.** On a list with an end token it comes to a result at the first one, and what
is behind that token does not matter. Each declaration that the loops begin on takes a token and leaves the end token
where it is, also one that is broken and passed over; these loops are those of the equations. A list without an end
token is read past its end. -/
theorem parser_stays_within_input :
    (∀ (w : List Token) (eof : Token), (∀ t ∈ w, t.kind ≠ .eof) → eof.kind = .eof →
      ∃ ss ds, ∀ rest, Parser.program (w ++ eof :: rest) = ⟨.ok ss, eof :: rest, ds⟩ ∧
        parse (w ++ eof :: rest) = some ⟨ss, ds⟩) ∧
    (∀ (t : Token) (ts : List Token), t.kind ≠ .eof → Ended ts →
      ∃ w s? rest ds, ts = w ++ rest ∧ (∀ u ∈ w, u.kind ≠ .eof) ∧ Ended rest ∧
        Parser.declaration (t :: ts) = ⟨.ok s?, rest, ds⟩) ∧
    (∀ ts, Ended ts →
      Parser.declaration ts
          = Parser.orSynchronize (Parser.declarationWith ⟨Parser.statement, Parser.declaration⟩) ts ∧
        Parser.statement ts = Parser.statementWith ⟨Parser.statement, Parser.declaration⟩ ts ∧
        Parser.expression ts = Parser.assignment Parser.expression ts) ∧
    ∀ ts, (∀ t ∈ ts, t.kind ≠ .eof) → (Parser.program ts).result = .error .pastEnd ∧ parse ts = none := by
  refine ⟨fun w eof hw heof => ?_, fun t ts ht hend => ?_, fun ts hend => ?_, fun ts hnone => ?_⟩
  · -- the program is read on the shortest such list, and read alike on every longer one
    have hend : Ended (w ++ [eof]) := ⟨eof, by simp, heof⟩
    obtain ⟨w', rest', ss, ds, hts, hw', hrest', hprogram, -⟩ := program_ended hend
    obtain rfl : w' = w := append_eof_unique hts hw' heof hw hrest'
    obtain rfl : [eof] = rest' := List.append_cancel_left hts
    refine ⟨ss, ds, fun rest => ?_⟩
    have hlonger := Parser.program_append hprogram (fun h => by cases h) rest
    rw [List.append_assoc] at hlonger
    exact ⟨hlonger, by rw [parse, ← List.singleton_append, hlonger]⟩
  · cases Parser.proceeds_declaration _ t ts ht (hend.cons t) (Nat.lt_succ_self _) with
    | mismatch _ _ _ hp _ => exact absurd (congrArg Reply.result hp) (Parser.persists_declaration (t :: ts))
    | @result w rest s? ds hts hw hrest hp hread =>
      obtain ⟨u, w, rfl⟩ := List.exists_cons_of_ne_nil hread.1
      obtain ⟨rfl, rfl⟩ := List.cons.inj hts
      exact ⟨w, s?, rest, ds, rfl, fun v hv => hw v (List.mem_cons_of_mem t hv), hrest, hp⟩
  · exact ⟨Parser.declaration_eq hend, Parser.statement_eq hend, Parser.expression_eq hend⟩
  · have hresult := Parser.program_unended hnone
    refine ⟨hresult, ?_⟩
    rcases hprogram : Parser.program ts with ⟨_ | ss, rest, ds⟩
    · rw [parse, hprogram]
    · rw [hprogram] at hresult
      cases hresult

/-- A list in which nothing fits: a `print` without an expression, a brace that nothing has opened, and a declaration behind
the end token. Both attempts take tokens, the end token stays, and what is behind it is not seen. -/
theorem parser_stays_within_input_nothing_fits :
    let token (kind : Kind) : Token := ⟨kind, "", .nil, 1⟩
    let w := [Kind.print, .semicolon, .rightBrace].map token
    let behind := [token .var, token .eof]
    (∀ t ∈ w, t.kind ≠ .eof) ∧ (token .eof).kind = .eof ∧
      (∃ ss ds, ds.length = 2 ∧ Parser.program (w ++ token .eof :: behind) = ⟨.ok ss, token .eof :: behind, ds⟩ ∧
        parse (w ++ token .eof :: behind) = some ⟨ss, ds⟩ ∧ parse (w ++ token .eof :: []) = some ⟨ss, ds⟩) ∧
      (Ended (w.tail ++ [token .eof]) ∧ ∃ taken s? rest ds, w.tail ++ [token .eof] = taken ++ rest ∧
        (∀ u ∈ taken, u.kind ≠ .eof) ∧ Ended rest ∧
        Parser.declaration (token .print :: (w.tail ++ [token .eof])) = ⟨.ok s?, rest, ds⟩) ∧
      (Parser.program w).result = .error .pastEnd ∧ parse w = none := by
  intro token w behind
  obtain ⟨hreads, htakes, -, hpast⟩ := parser_stays_within_input
  have hw : ∀ t ∈ w, t.kind ≠ .eof := by simp [w, token]
  have hend : Ended (w.tail ++ [token .eof]) := ⟨token .eof, by simp, rfl⟩
  obtain ⟨ss, ds, hall⟩ := hreads w (token .eof) hw rfl
  have hparse : (parse (w ++ token .eof :: [])).map (·.diagnostics.length) = some 2 := by decide
  rw [(hall []).2, Option.map_some, Option.some.injEq] at hparse
  exact ⟨hw, rfl, ⟨ss, ds, hparse, (hall behind).1, (hall behind).2, (hall []).2⟩,
    ⟨hend, htakes (token .print) _ (by decide) hend⟩, hpast w hw⟩

end LoxLang
