import LoxLang.Proofs.Parse.Acceptance
import Mathlib.Data.List.Basic

/-!
# Statements that lost their semicolon

What the parser makes of simple statements (`print`, `var`, `return`, which end with a semicolon) when some of
the semicolons are missing. It notices at the first token of the next statement, and recovery passes that token
before it looks for a place to go on.

* **`Parser.synchronize_passes`** — recovery at a simple statement goes on behind the whole of it.
* **`parse_fragments`** — so a statement without semicolon makes one complaint, at the next statement, and takes that
  one along, intact or not.
* **`parse_recovers`** — the broken statements alone are dropped, each with a complaint of its own, exactly if none of
  them has a statement behind it.
-/

namespace LoxLang

/-! ## What stands inside of expressions

Recovery looks for a semicolon or a keyword that begins a statement. Neither is found inside of an expression, so that
all of one is passed. -/

/-- The kinds of tokens at which recovery stops. -/
def boundaries : List Kind :=
  .semicolon :: .eof :: Parser.statementStarts

/-- Recovery does not stop at any of these tokens. -/
def Inner (w : List Token) : Prop :=
  ∀ t ∈ w, t.kind ∉ boundaries

/-- There is nothing to stop at. -/
@[simp] theorem inner_nil : Inner [] := by
  intro t ht
  cases ht

/-- The first token is none to stop at, and neither are the others. -/
@[simp] theorem inner_cons {t : Token} {w : List Token} :
    Inner (t :: w) ↔ t.kind ∉ boundaries ∧ Inner w :=
  List.forall_mem_cons

/-- Tokens without a boundary, one list behind another. -/
@[simp] theorem inner_append {w w' : List Token} : Inner (w ++ w') ↔ Inner w ∧ Inner w' :=
  List.forall_mem_append

/-- Whether a token is a boundary is seen by its kind. -/
theorem not_boundary {t : Token} {k : Kind} (ht : t.kind = k) (hk : k ∉ boundaries) : t.kind ∉ boundaries :=
  ht ▸ hk

/-- No operator is a boundary. -/
theorem Rank.operators_inner {r : Rank} {k : Kind} (h : k ∈ r.operators) : k ∉ boundaries := by
  revert k
  cases r <;> decide

/-- No statement begins or ends within an expression. -/
theorem Phrase.Derives.inner {d : Dialect} {p : Phrase} {w : List Token} (h : p.Derives d w) : Inner w := by
  -- none of the kinds that a rule puts down is a boundary, and the parts have none by induction
  induction h with
  | assign hname hequals _ ih =>
    exact inner_cons.mpr ⟨not_boundary hname (by decide),
      inner_cons.mpr ⟨not_boundary hequals (by decide), ih⟩⟩
  | set _ hdot hname hequals _ ih₁ ih₂ =>
    have hdot := not_boundary hdot (by decide)
    have hname := not_boundary hname (by decide)
    have hequals := not_boundary hequals (by decide)
    simp [ih₁, ih₂, hdot, hname, hequals]
  | misplaced _ _ _ _ hequals _ ih₁ ih₂ =>
    have hequals := not_boundary hequals (by decide)
    simp [ih₁, ih₂, hequals]
  | disjunction _ ih | noUnary _ ih | oneArgument _ ih | someArguments _ ih => exact ih
  | joined _ _ ih₁ ih₂ | call _ _ ih₁ ih₂ => exact inner_append.mpr ⟨ih₁, ih₂⟩
  | noOperation | noSuffix | noArguments => exact inner_nil
  | operation hoperator _ _ ih₁ ih₂ =>
    exact inner_cons.mpr ⟨Rank.operators_inner hoperator, inner_append.mpr ⟨ih₁, ih₂⟩⟩
  | @unary operator _ _ hoperator _ ih =>
    refine inner_cons.mpr ⟨?_, ih⟩
    revert hoperator
    cases operator.kind <;> decide
  | arguments hopen _ _ hparen _ ih₁ ih₂ =>
    have hopen := not_boundary hopen (by decide)
    have hparen := not_boundary hparen (by decide)
    simp [ih₁, ih₂, hopen, hparen]
  | property hdot hname _ ih =>
    exact inner_cons.mpr ⟨not_boundary hdot (by decide), inner_cons.mpr ⟨not_boundary hname (by decide), ih⟩⟩
  | moreArguments _ hcomma _ ih₁ ih₂ =>
    have hcomma := not_boundary hcomma (by decide)
    simp [ih₁, ih₂, hcomma]
  | literalFalse ht | literalTrue ht | literalNil ht | this ht | identifier ht =>
    exact inner_cons.mpr ⟨not_boundary ht (by decide), inner_nil⟩
  | literal ht =>
    refine inner_cons.mpr ⟨?_, inner_nil⟩
    rcases ht with ht | ht
    · exact not_boundary ht (by decide)
    · exact not_boundary ht (by decide)
  | grouping hopen _ hparen ih =>
    have hopen := not_boundary hopen (by decide)
    have hparen := not_boundary hparen (by decide)
    simp [ih, hopen, hparen]
  | super hkeyword hdot hmethod =>
    have hkeyword := not_boundary hkeyword (by decide)
    have hdot := not_boundary hdot (by decide)
    have hmethod := not_boundary hmethod (by decide)
    simp [hkeyword, hdot, hmethod]

/-! ## Simple statements

Statements with a semicolon at the end and nothing in them that recovery would stop at. -/

/-- The simple statements: the tree, what the parser calls the missing semicolon, the keyword, and the tokens between
the keyword and the semicolon. -/
inductive SimpleStatement : SourceStmt → String → Token → List Token → Prop where
  | printing {keyword : Token} {e : SourceExpr} {w : List Token} (hkeyword : keyword.kind = .print)
      (he : Expression .written e w) : SimpleStatement (.print e) "';' after value" keyword w
  | declaring {keyword name : Token} (hkeyword : keyword.kind = .var) (hname : name.kind = .identifier) :
      SimpleStatement (.var name none) "';' after variable declaration" keyword [name]
  | initializing {keyword name equals : Token} {e : SourceExpr} {w : List Token} (hkeyword : keyword.kind = .var)
      (hname : name.kind = .identifier) (hequals : equals.kind = .equal) (he : Expression .written e w) :
      SimpleStatement (.var name (some e)) "';' after variable declaration" keyword (name :: equals :: w)
  | returning {keyword : Token} {e : SourceExpr} {w : List Token} (hkeyword : keyword.kind = .return)
      (he : Expression .written e w) :
      SimpleStatement (.return keyword (some e)) "';' after return value" keyword w

namespace SimpleStatement

variable {s : SourceStmt} {closing : String} {keyword : Token} {w : List Token}

/-- A simple statement begins with one of three keywords, each of which recovery would stop at. -/
theorem keyword_starts (h : SimpleStatement s closing keyword w) :
    keyword.kind ∈ [Kind.print, .var, .return] := by
  cases h with
  | printing hkeyword | declaring hkeyword | initializing hkeyword | returning hkeyword =>
    rw [hkeyword]
    decide

theorem inner (h : SimpleStatement s closing keyword w) : Inner w := by
  cases h with
  | printing _ he | returning _ he => exact he.inner
  | declaring _ hname => exact inner_cons.mpr ⟨not_boundary hname (by decide), inner_nil⟩
  | initializing _ hname hequals he =>
    exact inner_cons.mpr ⟨not_boundary hname (by decide),
      inner_cons.mpr ⟨not_boundary hequals (by decide), he.inner⟩⟩

/-- With its semicolon, a simple statement is one of the grammar. -/
theorem derives (h : SimpleStatement s closing keyword w) {semicolon : Token}
    (hsemicolon : semicolon.kind = .semicolon) :
    (Clause.declaration s false).Derives .standard (keyword :: (w ++ [semicolon])) := by
  cases h with
  | printing hkeyword he => exact .statement (.printing hkeyword he.nearest hsemicolon)
  | declaring hkeyword hname => exact .variableDeclaration (.plain hkeyword hname hsemicolon)
  | initializing hkeyword hname hequals he =>
    exact .variableDeclaration (.initialized hkeyword hname hequals he.nearest hsemicolon)
  | returning hkeyword he => exact .statement (.returning hkeyword (.some he.nearest) hsemicolon)

end SimpleStatement

/-- A simple statement of a program, with its semicolon unless that was lost. -/
structure Fragment where
  statement : SourceStmt
  /-- What the parser calls the semicolon when it misses it. -/
  closing : String
  keyword : Token
  words : List Token
  semicolon : Option Token
  simple : SimpleStatement statement closing keyword words
  closed : ∀ t ∈ semicolon, t.kind = .semicolon

namespace Fragment

/-- The tokens of the statement in the program. -/
def tokens (p : Fragment) : List Token :=
  p.keyword :: (p.words ++ p.semicolon.toList)

/-- The statement has its semicolon. -/
def intact (p : Fragment) : Bool :=
  p.semicolon.isSome

/-- The complaint at a token that stands where the semicolon should. -/
def complaint (p : Fragment) (t : Token) : Diagnostic :=
  .ofToken .parse (.expectedToken p.closing) t

/-- An intact statement ends with its semicolon. -/
theorem tokens_of_intact {p : Fragment} (h : p.intact = true) :
    ∃ semicolon, semicolon.kind = .semicolon ∧ p.tokens = p.keyword :: (p.words ++ [semicolon]) := by
  obtain ⟨semicolon, hsemicolon⟩ := Option.isSome_iff_exists.mp h
  exact ⟨semicolon, p.closed semicolon hsemicolon, by simp [tokens, hsemicolon]⟩

/-- A broken one lacks it. -/
theorem tokens_of_not_intact {p : Fragment} (h : ¬ p.intact = true) : p.tokens = p.keyword :: p.words := by
  have hnone : p.semicolon = none := by simpa [intact] using h
  simp [tokens, hnone]

end Fragment

/-! ## One statement

A broken statement is noticed at the keyword of the next one. Recovery starts with dropping that token, and so it is the
semicolon of the next statement, or the keyword after it, that it stops at. -/

/-- A statement or the end comes next. -/
def NextStarts (rest : List Token) : Prop :=
  ∃ t ts, rest = t :: ts ∧ (t.kind = .eof ∨ t.kind ∈ [Kind.print, .var, .return])

/-- Behind a simple statement comes another one or the end. -/
theorem nextStarts_tokens (ps : List Fragment) {eof : Token} (heof : eof.kind = .eof) :
    NextStarts (ps.flatMap Fragment.tokens ++ [eof]) := by
  cases ps with
  | nil => exact ⟨eof, [], rfl, .inl heof⟩
  | cons p ps => exact ⟨p.keyword, _, rfl, .inr p.simple.keyword_starts⟩

namespace Parser

/-- Behind a semicolon, and before the next statement, recovery stops. -/
theorem nextStatement_stops {previous t : Token} {ts : List Token}
    (h : t.kind = .eof ∨ previous.kind = .semicolon ∨ t.kind ∈ statementStarts) :
    nextStatement previous (t :: ts) = ⟨.ok (), t :: ts, []⟩ := by
  rw [nextStatement, if_pos h]

/-- Recovery goes through all tokens at which it does not stop. -/
theorem nextStatement_inner {w : List Token} (hw : Inner w) {previous : Token}
    (hprevious : previous.kind ≠ .semicolon) (rest : List Token) :
    ∃ last, last.kind ≠ .semicolon ∧ nextStatement previous (w ++ rest) = nextStatement last rest := by
  induction w generalizing previous with
  | nil => exact ⟨previous, hprevious, rfl⟩
  | cons t w ih =>
    obtain ⟨ht, hw⟩ := inner_cons.mp hw
    simp only [boundaries, List.mem_cons, not_or] at ht
    obtain ⟨hsemicolon, heof, hstart⟩ := ht
    obtain ⟨last, hlast, hrun⟩ := ih hw hsemicolon
    refine ⟨last, hlast, ?_⟩
    rw [List.cons_append, nextStatement, if_neg (by simp only [heof, hprevious, hstart, or_self, not_false_eq_true]),
      hrun]

/-- At a simple statement, recovery goes on behind the whole of it, whether it has its semicolon or not. -/
theorem synchronize_passes (p : Fragment) {rest : List Token} (hrest : NextStarts rest) :
    synchronize (p.tokens ++ rest) = ⟨.ok (), rest, []⟩ := by
  have hkeyword := p.simple.keyword_starts
  have heof : p.keyword.kind ≠ .eof := by intro h; rw [h] at hkeyword; revert hkeyword; decide
  have hsemicolon : p.keyword.kind ≠ .semicolon := by intro h; rw [h] at hkeyword; revert hkeyword; decide
  obtain ⟨t, ts, rfl, ht⟩ := hrest
  have hstarts : t.kind = .eof ∨ t.kind ∈ statementStarts :=
    ht.imp_right fun h => List.Subset.trans (by decide) (List.Subset.refl statementStarts) h
  -- recovery stops behind the semicolon if there is one, and else before the next statement
  by_cases hintact : p.intact = true
  · obtain ⟨semicolon, hkind, htokens⟩ := Fragment.tokens_of_intact hintact
    obtain ⟨last, hlast, hrun⟩ := nextStatement_inner p.simple.inner hsemicolon (semicolon :: t :: ts)
    have hpass : nextStatement last (semicolon :: t :: ts) = nextStatement semicolon (t :: ts) := by
      rw [nextStatement, if_neg (by simp [hkind, hlast, statementStarts])]
    rw [htokens, List.cons_append, synchronize, if_neg heof, List.append_assoc, List.singleton_append, hrun, hpass]
    exact nextStatement_stops (.inr (.inl hkind))
  · obtain ⟨last, -, hrun⟩ := nextStatement_inner p.simple.inner hsemicolon (t :: ts)
    rw [Fragment.tokens_of_not_intact hintact, List.cons_append, synchronize, if_neg heof, hrun]
    exact nextStatement_stops (hstarts.imp_right .inr)

/-- At the end there is nothing to drop. -/
theorem synchronize_eof {eof : Token} (heof : eof.kind = .eof) :
    synchronize [eof] = ⟨.ok (), [eof], []⟩ := by
  rw [synchronize, if_pos heof]

/-- A declaration of a variable is told by its keyword. -/
theorem declarationWith_var {nested : Nested} {var : Token} (hvar : var.kind = .var) (ts : List Token) :
    declarationWith nested (var :: ts) = varDeclaration ts := by
  have hclass : var.kind ≠ .class := by rw [hvar]; decide
  have hfun : var.kind ≠ .fun := by rw [hvar]; decide
  unfold declarationWith
  rw [bind_ok (accept_neg hclass _), if_neg (by decide), bind_ok (accept_neg hfun _), if_neg (by decide)]
  rw [bind_ok (accept_pos hvar _), if_pos rfl]

/-- The answer of a parser that misses what it expects at a token. -/
def missing (expected : String) (t : Token) (ts : List Token) : Reply SourceStmt :=
  ⟨.error .mismatch, t :: ts, [.ofToken .parse (.expectedToken expected) t]⟩

/-- A missing semicolon is complained about at the token that stands in its place. -/
theorem expect_missing {kind : Kind} {t : Token} (ht : t.kind ≠ kind) (expected : String) (ts : List Token)
    (f : Token → Parser SourceStmt) : (expect kind expected >>= f) (t :: ts) = missing expected t ts :=
  bind_error (expect_neg ht expected ts)

/-- Without its semicolon, a simple statement is given up at the token behind it. -/
theorem declarationWith_broken {s : SourceStmt} {closing : String} {keyword t : Token} {w : List Token}
    (h : SimpleStatement s closing keyword w) (ht : t.kind = .eof ∨ t.kind ∈ [Kind.print, .var, .return])
    (nested : Nested) (ts : List Token) :
    declarationWith nested (keyword :: (w ++ t :: ts)) = missing closing t ts := by
  have hsemicolon : t.kind ≠ .semicolon := by intro h; rw [h] at ht; revert ht; decide
  have hequal : t.kind ≠ .equal := by intro h; rw [h] at ht; revert ht; decide
  have hstop : t.kind ∉ continuing := by
    revert ht
    cases t.kind <;> decide
  have hvalue : ∀ {e : SourceExpr} {w : List Token}, Expression .written e w →
      expression (w ++ t :: ts) = ⟨.ok e, t :: ts, []⟩ :=
    fun he => (expression_reads_to he rfl hstop ts).eq rfl rfl
  cases h with
  | printing hkeyword he =>
    rw [declarationWith_statement (by rw [hkeyword]; decide), statementWith_keyword (by simp [hkeyword])]
    simp only [hkeyword]
    unfold printStatement
    rw [bind_ok (hvalue he)]
    exact expect_missing hsemicolon _ ts _
  | @declaring _ name hkeyword hname =>
    rw [declarationWith_var hkeyword]
    unfold varDeclaration
    rw [List.singleton_append, bind_ok (expect_pos hname _ _), bind_ok (accept_neg hequal ts)]
    exact expect_missing hsemicolon _ ts _
  | @initializing _ name equals e w hkeyword hname hequals he =>
    rw [declarationWith_var hkeyword]
    unfold varDeclaration
    rw [List.cons_append, List.cons_append, bind_ok (expect_pos hname _ _), bind_ok (accept_pos hequals _),
      if_pos rfl, bind_ok (hvalue he)]
    exact expect_missing hsemicolon _ ts _
  | @returning _ e w hkeyword he =>
    -- the token behind the value is no semicolon, so the value is not taken for a missing one
    have hunless : expressionUnless .semicolon (w ++ t :: ts) = ⟨.ok (some e), t :: ts, []⟩ := by
      have hread := hvalue he
      obtain ⟨u, w', rfl, hu⟩ := he.starts
      have hne : u.kind ≠ .semicolon := by intro h; rw [h] at hu; revert hu; decide
      unfold expressionUnless
      rw [List.cons_append, bind_ok (check_cons _ _ _), beq_eq_false_iff_ne.mpr hne]
      exact bind_ok hread
    rw [declarationWith_statement (by rw [hkeyword]; decide), statementWith_keyword (by simp [hkeyword])]
    simp only [hkeyword]
    unfold returnStatement
    rw [bind_ok hunless]
    exact expect_missing hsemicolon _ ts _

/-! ## One declaration

The same with recovery around it. An intact statement is read as the grammar wants it. -/

/-- An intact statement is read without complaints. -/
theorem declaration_intact {p : Fragment} (h : p.intact = true) {rest : List Token} (hrest : NextStarts rest) :
    declaration (p.tokens ++ rest) = ⟨.ok (some p.statement), rest, []⟩ := by
  obtain ⟨t, ts, rfl, -⟩ := hrest
  obtain ⟨semicolon, hsemicolon, htokens⟩ := Fragment.tokens_of_intact h
  have hreads := clauseReads_of_derives rfl (p.simple.derives hsemicolon)
  rw [htokens]
  exact (readsEach_declaration _ _ _ _ (Nat.lt_succ_self _)
    fun n hn => hreads n _ hn ⟨t, ts, rfl, by simp⟩).eq rfl rfl

/-- A statement without semicolon makes one complaint, and recovery begins behind its tokens. -/
theorem declaration_broken {p : Fragment} (h : ¬ p.intact = true) {t : Token} {ts rest : List Token}
    (ht : t.kind = .eof ∨ t.kind ∈ [Kind.print, .var, .return])
    (hsync : synchronize (t :: ts) = ⟨.ok (), rest, []⟩) :
    declaration (p.tokens ++ t :: ts) = ⟨.ok none, rest, [p.complaint t]⟩ := by
  have hbroken := declarationWith_broken p.simple ht
    (nested (p.keyword :: (p.words ++ t :: ts)).length) ts
  rw [Fragment.tokens_of_not_intact h, List.cons_append]
  change orSynchronize _ _ = _
  rw [orSynchronize, hbroken, missing]
  simp only [hsync]
  rfl

end Parser

/-! ## The whole program

The loop over declarations goes along the statements. A broken one takes the next one along, so that a round reads one
statement or passes two. -/

/-- What is read of simple statements: a broken one is dropped together with the statement behind it, and the
complaint stands at the first token behind it. -/
def recovered (eof : Token) : List Fragment → Parsed
  | [] => ⟨[], []⟩
  | p :: ps =>
    if p.intact then
      let parsed := recovered eof ps
      ⟨p.statement :: parsed.program, parsed.diagnostics⟩
    else
      match ps with
      | [] => ⟨[], [p.complaint eof]⟩
      | q :: ps =>
        let parsed := recovered eof ps
        ⟨parsed.program, p.complaint q.keyword :: parsed.diagnostics⟩

namespace Parser

/-- More declarations follow until the end token. -/
theorem more_tokens (p : Fragment) (ts : List Token) :
    (do return !(← atEnd) : Parser Bool) (p.tokens ++ ts) = ⟨.ok true, p.tokens ++ ts, []⟩ := by
  have hne : (p.keyword.kind == .eof) = false := by
    have hkeyword := p.simple.keyword_starts
    refine beq_eq_false_iff_ne.mpr fun h => ?_
    rw [h] at hkeyword
    revert hkeyword
    decide
  exact (bind_ok (atEnd_cons p.keyword _)).trans (by rw [hne]; rfl)

/-- The loop ends at the end token. -/
theorem no_more {eof : Token} (heof : eof.kind = .eof) :
    (do return !(← atEnd) : Parser Bool) [eof] = ⟨.ok false, [eof], []⟩ :=
  (bind_ok (atEnd_cons eof [])).trans (by rw [heof]; rfl)

/-- The loop over the declarations, one round for each statement or two. -/
theorem whileM_recovers {eof : Token} (heof : eof.kind = .eof) (ps : List Fragment) :
    ∀ k, (ps.flatMap Fragment.tokens ++ [eof]).length < k →
      ∃ as, whileM (return !(← atEnd)) declaration k (ps.flatMap Fragment.tokens ++ [eof])
          = ⟨.ok as, [eof], (recovered eof ps).diagnostics⟩ ∧
        as.filterMap id = (recovered eof ps).program := by
  fun_induction recovered eof ps with
  | case1 =>
    intro k hk
    obtain ⟨k, rfl⟩ : ∃ k', k = k' + 1 := ⟨k - 1, by omega⟩
    exact ⟨[], whileM_none (no_more heof), rfl⟩
  | case2 p ps hintact parsed ih =>
    intro k hk
    obtain ⟨k, rfl⟩ : ∃ k', k = k' + 1 := ⟨k - 1, by omega⟩
    rw [List.flatMap_cons, List.append_assoc] at hk ⊢
    obtain ⟨as, hloop, hprogram⟩ := ih k (by simp [Fragment.tokens] at hk ⊢; omega)
    have hitem := declaration_intact hintact (nextStarts_tokens ps heof)
    refine ⟨some p.statement :: as, whileM_more (more_tokens p _) hitem hloop, ?_⟩
    rw [List.filterMap_cons_some (by rfl), hprogram]
  -- the last statement is broken: recovery runs to the end
  | case3 p hbroken =>
    intro k hk
    obtain ⟨k, rfl⟩ : ∃ k', k = k' + 2 := ⟨k - 2, by simp [Fragment.tokens] at hk; omega⟩
    have hitem := declaration_broken hbroken (.inl heof) (synchronize_eof heof)
    rw [List.flatMap_cons, List.flatMap_nil, List.append_nil]
    exact ⟨[none], whileM_more (more_tokens p _) hitem (whileM_none (no_more heof)), rfl⟩
  -- recovery from a broken statement takes the statement behind it as well
  | case4 p hbroken q ps parsed ih =>
    intro k hk
    obtain ⟨k, rfl⟩ : ∃ k', k = k' + 1 := ⟨k - 1, by omega⟩
    rw [List.flatMap_cons, List.flatMap_cons, List.append_assoc, List.append_assoc] at hk ⊢
    obtain ⟨as, hloop, hprogram⟩ := ih k (by simp [Fragment.tokens] at hk ⊢; omega)
    have hsync := synchronize_passes q (nextStarts_tokens ps heof)
    have hitem := declaration_broken hbroken (.inr q.simple.keyword_starts) hsync
    refine ⟨none :: as, whileM_more (more_tokens p _) hitem hloop, ?_⟩
    rw [List.filterMap_cons_none (by rfl), hprogram]

end Parser

/-- What the parser makes of a program of simple statements is `recovered`, computed from which of them are broken. -/
theorem parse_fragments {eof : Token} (heof : eof.kind = .eof) (ps : List Fragment) :
    parse (ps.flatMap Fragment.tokens ++ [eof]) = some (recovered eof ps) := by
  obtain ⟨as, hloop, hprogram⟩ := Parser.whileM_recovers heof ps _ (Nat.lt_succ_self _)
  have hread : Parser.program (ps.flatMap Fragment.tokens ++ [eof]) = ⟨.ok (as.filterMap id), [eof], _⟩ :=
    Parser.bind_ok' hloop (Parser.pure_apply _ _)
  rw [parse, hread, hprogram, List.append_nil]

/-! ## When nothing else is lost

Counting statements and complaints shows when an intact statement is lost: each complaint takes a second statement along
unless the broken one is the last. -/

/-- Exactly the intact statements are there, and there is a complaint for each of the others. -/
def Parsed.DropsBrokenOnly (parsed : Parsed) (ps : List Fragment) : Prop :=
  parsed.program = (ps.filter Fragment.intact).map Fragment.statement ∧
    parsed.diagnostics.length = (ps.filter (!·.intact)).length

/-- Where only broken statements are dropped, each statement is either in the program or complained about. -/
theorem Parsed.DropsBrokenOnly.length {parsed : Parsed} {ps : List Fragment} (h : parsed.DropsBrokenOnly ps) :
    parsed.program.length + parsed.diagnostics.length = ps.length := by
  rw [h.1, h.2, List.length_map, ← List.length_eq_length_filter_add]

/-- Every statement is read or complained about, but for those behind a broken one. -/
theorem recovered_length (eof : Token) (ps : List Fragment) :
    (recovered eof ps).program.length + (recovered eof ps).diagnostics.length ≤ ps.length ∧
      ((recovered eof ps).program.length + (recovered eof ps).diagnostics.length = ps.length →
        ∀ p ∈ ps.dropLast, p.intact = true) := by
  fun_induction recovered eof ps with
  | case1 => simp
  | case2 p ps hintact parsed ih =>
    obtain ⟨hle, hall⟩ := ih
    simp only [List.length_cons, parsed]
    refine ⟨by omega, fun heq => ?_⟩
    cases ps with
    | nil => simp
    | cons q ps =>
      rw [List.dropLast_cons_cons]
      exact List.forall_mem_cons.mpr ⟨hintact, hall (by omega)⟩
  | case3 p hbroken => simp
  | case4 p hbroken q ps parsed ih =>
    obtain ⟨hle, -⟩ := ih
    simp only [List.length_cons, parsed]
    exact ⟨by omega, fun heq => by omega⟩

/-- If only the last statement is broken then nothing comes behind it that could be taken along. -/
theorem recovered_drops (eof : Token) (ps : List Fragment) (h : ∀ p ∈ ps.dropLast, p.intact = true) :
    (recovered eof ps).DropsBrokenOnly ps := by
  fun_induction recovered eof ps with
  | case1 => exact ⟨rfl, rfl⟩
  | case2 p ps hintact parsed ih =>
    have htail : ∀ q ∈ ps.dropLast, q.intact = true := by
      cases ps with
      | nil => simp
      | cons q ps => exact (List.forall_mem_cons.mp h).2
    obtain ⟨hprogram, hcount⟩ := ih htail
    exact ⟨by simp [hintact, ← hprogram, parsed], by simp [hintact, ← hcount, parsed]⟩
  | case3 p hbroken => exact ⟨by simp [hbroken], by simp [hbroken]⟩
  | case4 p hbroken q ps => exact absurd (h p (by simp)) hbroken

/-! ### A program with an unclosed statement

Two statements on one line, the first one without its semicolon. -/

/-- A primary expression is an expression. -/
theorem Phrase.Derives.expression {d : Dialect} {e : SourceExpr} {w : List Token}
    (h : (Phrase.expr .primary e).Derives d w) : Expression d e w := by
  have hcall : (Phrase.expr .call e).Derives d w := by simpa using Phrase.Derives.call h .noSuffix
  have hjoin : ∀ {r : Rank}, (Phrase.expr r.operand e).Derives d w → (Phrase.expr (.joined r) e).Derives d w :=
    fun h => by simpa using Phrase.Derives.joined h .noOperation
  have hfactor := hjoin (r := .factor) (.noUnary hcall)
  have hequality := hjoin (r := .equality) (hjoin (r := .comparison) (hjoin (r := .term) hfactor))
  exact .disjunction (hjoin (r := .disjunction) (hjoin (r := .conjunction) hequality))

/-- A number on the first line. -/
def Token.numeral (n : Nat) : Token :=
  ⟨.number, toString n, .number n.toFloat, 1⟩

/-- The statement `print n` on the first line, with or without its semicolon. -/
def Fragment.printNumber (n : Nat) (semicolon : Option Token) (h : ∀ t ∈ semicolon, t.kind = .semicolon) :
    Fragment where
  statement := .print (.literal (Token.numeral n).literal)
  closing := "';' after value"
  keyword := ⟨.print, "print", .nil, 1⟩
  words := [.numeral n]
  semicolon := semicolon
  simple := .printing rfl (Phrase.Derives.literal (.inl rfl)).expression
  closed := h

/-- The text `print 1 print 2;` as statements. -/
def unclosedPrint : List Fragment :=
  [.printNumber 1 none (by simp), .printNumber 2 (some ⟨.semicolon, ";", .nil, 1⟩) (by simp)]

/-! ## Programs with broken statements

A list of statements of which some have lost their semicolon is read statement by statement. -/

/-- A program of `print`, `var` and `return` statements is given, and some have lost their semicolon. A broken one
makes one complaint, at the first token behind it, and is dropped together with the whole statement behind it; all
others are read. So the broken statements alone are dropped, each with its complaint, exactly if none has a statement
behind it. -/
theorem parse_recovers {eof : Token} (heof : eof.kind = .eof) (ps : List Fragment) :
    parse (ps.flatMap Fragment.tokens ++ [eof]) = some (recovered eof ps) ∧
      ((recovered eof ps).DropsBrokenOnly ps ↔ ∀ p ∈ ps.dropLast, p.intact = true) :=
  ⟨parse_fragments heof ps, fun h => (recovered_length eof ps).2 h.length, recovered_drops eof ps⟩

/-- The tokens of `print 1 print 2;`: nothing is read, so the intact second statement is lost. -/
theorem parse_recovers_unclosed_print :
    (Token.eof 1).kind = .eof ∧
      parse (unclosedPrint.flatMap Fragment.tokens ++ [.eof 1]) = some (recovered (.eof 1) unclosedPrint) ∧
      ((recovered (.eof 1) unclosedPrint).DropsBrokenOnly unclosedPrint ↔
        ∀ p ∈ unclosedPrint.dropLast, p.intact = true) :=
  ⟨rfl, parse_recovers rfl unclosedPrint⟩

/-- Recovery does not keep to the broken statement: the second statement of `print 1 print 2;` is dropped too. -/
theorem intact_statement_dropped :
    ¬ ∀ (eof : Token) (ps : List Fragment), eof.kind = .eof →
      ∃ parsed, parse (ps.flatMap Fragment.tokens ++ [eof]) = some parsed ∧ parsed.DropsBrokenOnly ps := by
  intro h
  obtain ⟨parsed, hparse, hprogram, -⟩ := h (.eof 1) unclosedPrint rfl
  rw [parse_fragments rfl] at hparse
  cases hparse
  simp [unclosedPrint, recovered, Fragment.intact, Fragment.printNumber] at hprogram

end LoxLang
