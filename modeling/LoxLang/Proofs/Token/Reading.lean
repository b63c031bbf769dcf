import LoxLang.Proofs.Token.MaximalMunch

/-!
# The scan of a text as a reading of its cut

The tokens of a text are the lexemes of its cut, one token each, and the end; the diagnostics are the
complaints about its other pieces. Each stands on the line on which its piece ends, which is counted in the
text itself and not from piece to piece:

* **`tokensFrom_reads`**, **`diagnosticsFrom_reads`** — the reading of the pieces behind others.
* **`scan_reads_cut`** — the scan of a whole text.
-/

namespace LoxLang

/-! ## What is read off a piece

Lines are counted in the text itself, up to the end of a piece. -/

/-- The line on which the piece at an index ends: one more than the number of newlines of the text up to the
end of the piece. -/
def endLine (s : List Char) (ps : List Piece) (i : Nat) : Nat :=
  1 + (s.take ((ps.take (i + 1)).flatMap Piece.text).length).count '\n'

/-- The lexemes among pieces that are numbered from `i` on, with their kinds and numbers. -/
def lexemesFrom (i : Nat) (ps : List Piece) : List (Kind × List Char × Nat) :=
  (ps.zipIdx i).filterMap fun
    | (.token kind lexeme, j) => some (kind, lexeme, j)
    | _ => none

/-- A token says what a lexeme is: its kind, its text, its line, and the literal, which is the text between
the quotes of a string, the value of a number, and nothing for any other lexeme. -/
structure Token.Tells (t : Token) (kind : Kind) (lexeme : List Char) (line : Nat) : Prop where
  kind_eq : t.kind = kind
  lexeme_eq : t.lexeme = String.ofList lexeme
  line_eq : t.line = line
  string : ∀ body, kind = .string → lexeme = '"' :: (body ++ ['"']) →
    t.literal = .string (String.ofList body)
  number : kind = .number → t.literal = .number (numberValue lexeme)
  other : kind ≠ .string → kind ≠ .number → t.literal = .nil

/-- The complaint about a piece that ends on a line: one for each unexpected character, and one for a string
that is not closed. -/
def Piece.complaint? (line : Nat) : Piece → Option Diagnostic
  | unexpected c => some ⟨.scan, .unexpectedCharacter (String.singleton c), none, some line⟩
  | unterminated _ => some ⟨.scan, .unterminatedString, none, some line⟩
  | _ => none

/-- A lexeme has the kind of a reserved word exactly if it is that word. -/
theorem Lexeme.keyword_iff {k k' : Kind} {w : List Char} (h : Lexeme k w)
    (hk' : k' ∈ Kind.keywords.map (·.2)) : k = k' ↔ (String.ofList w, k') ∈ Kind.keywords := by
  constructor
  · rintro rfl
    cases h with
    | fixed hf =>
      have hall : ∀ p ∈ fixedLexemes, p.2 ∉ Kind.keywords.map (·.2) := by decide
      exact absurd hk' (hall _ hf)
    | whole _ _ => exact absurd hk' (by decide)
    | fraction _ _ _ _ => exact absurd hk' (by decide)
    | string _ => exact absurd hk' (by decide)
    | keyword hk => exact hk
    | identifier _ _ _ => exact absurd hk' (by decide)
  · intro hmem
    exact h.kind_unique (.keyword hmem)

/-! ## Reading behind other pieces

The scan carries a line along. It is the number of newlines before the piece, and one more. -/

/-- One piece more before the others. -/
theorem newlines_flatMap_concat (pre : List Piece) (p : Piece) :
    1 + (pre.flatMap Piece.text).count '\n' + p.newlines
      = 1 + ((pre ++ [p]).flatMap Piece.text).count '\n' := by
  rw [List.flatMap_append, List.count_append, List.flatMap_singleton, Piece.newlines]
  omega

/-- The line at the end of a piece does not depend on what follows it. -/
theorem endLine_append {s : List Char} {pre ps : List Piece} {p : Piece}
    (hs : (pre ++ p :: ps).flatMap Piece.text = s) :
    endLine s (pre ++ p :: ps) pre.length = 1 + ((pre ++ [p]).flatMap Piece.text).count '\n' := by
  have htake : (pre ++ p :: ps).take (pre.length + 1) = pre ++ [p] := by
    rw [List.take_append, List.take_of_length_le (by omega), Nat.add_sub_cancel_left,
      List.take_succ_cons, List.take_zero]
  have hsplit : s = (pre ++ [p]).flatMap Piece.text ++ ps.flatMap Piece.text := by
    rw [← hs, ← List.flatMap_append, List.append_assoc, List.singleton_append]
  rw [endLine, htake, hsplit, List.take_left]

/-- The token that the scanner makes of a lexeme. -/
theorem tells_token (kind : Kind) (lexeme : List Char) (line : Nat) :
    Token.Tells ⟨kind, String.ofList lexeme, .ofLexeme kind lexeme, line⟩ kind lexeme line where
  kind_eq := rfl
  lexeme_eq := rfl
  line_eq := rfl
  string := by
    rintro body rfl rfl
    simp [Literal.ofLexeme]
  number := by
    rintro rfl
    rfl
  other := by
    intro hs hn
    unfold Literal.ofLexeme
    split
    · exact absurd rfl hn
    · exact absurd rfl hs
    · rfl

/-- The tokens of the pieces that stand behind `pre`, by induction on them. -/
theorem tokensFrom_reads (s : List Char) (pre ps : List Piece) (hs : (pre ++ ps).flatMap Piece.text = s) :
    ∃ ts, tokensFrom (1 + (pre.flatMap Piece.text).count '\n') ps = ts ++ [.eof (1 + s.count '\n' : Nat)]
      ∧ List.Forall₂ (fun x t => t.Tells x.1 x.2.1 (endLine s (pre ++ ps) x.2.2))
          (lexemesFrom pre.length ps) ts := by
  -- the next piece moves to the pieces before, and the line that is carried along has counted its newlines
  induction ps generalizing pre with
  | nil =>
    rw [List.append_nil] at hs
    exact ⟨[], by rw [tokensFrom, hs, List.nil_append], .nil⟩
  | cons p ps ih =>
    have happ : pre ++ p :: ps = pre ++ [p] ++ ps := by simp
    obtain ⟨ts, hts, hall⟩ := ih (pre ++ [p]) (by rw [← happ, hs])
    rw [← happ, List.length_append, List.length_singleton] at hall
    rw [← newlines_flatMap_concat] at hts
    have hline := endLine_append hs
    rw [← newlines_flatMap_concat] at hline
    simp only [tokensFrom, hts, ← List.append_assoc]
    refine ⟨_, rfl, ?_⟩
    cases p with
    | token kind lexeme =>
      refine .cons ?_ hall
      rw [hline]
      exact tells_token kind lexeme _
    | _ => exact hall

/-- The diagnostics of the pieces that stand behind `pre`, by induction on them. -/
theorem diagnosticsFrom_reads (s : List Char) (pre ps : List Piece)
    (hs : (pre ++ ps).flatMap Piece.text = s) :
    diagnosticsFrom (1 + (pre.flatMap Piece.text).count '\n') ps
      = (ps.zipIdx pre.length).filterMap fun (p, i) => p.complaint? (endLine s (pre ++ ps) i) := by
  induction ps generalizing pre with
  | nil => rfl
  | cons p ps ih =>
    have happ : pre ++ p :: ps = pre ++ [p] ++ ps := by simp
    have hrest := ih (pre ++ [p]) (by rw [← happ, hs])
    rw [← happ, List.length_append, List.length_singleton, ← newlines_flatMap_concat] at hrest
    have hline := endLine_append hs
    rw [← newlines_flatMap_concat] at hline
    rw [List.zipIdx_cons, List.filterMap_cons]
    simp only [diagnosticsFrom, hrest, hline]
    cases p <;> rfl

/-- Each token of pieces is the lexeme of one of them; behind them stands the end. -/
theorem tokensFrom_lexemes (line : Nat) (ps : List Piece) :
    ∃ ts eof, tokensFrom line ps = ts ++ [eof] ∧ eof.kind = .eof ∧
      ∀ t ∈ ts, ∃ w, .token t.kind w ∈ ps ∧ t.lexeme = String.ofList w := by
  induction ps generalizing line with
  | nil => exact ⟨[], .eof line, rfl, rfl, by simp⟩
  | cons p ps ih =>
    obtain ⟨ts, eof, hts, heof, hall⟩ := ih (line + p.newlines)
    refine ⟨(p.token? (line + p.newlines)).toList ++ ts, eof, ?_, heof, fun t ht => ?_⟩
    · rw [tokensFrom, hts, List.append_assoc]
    · rcases List.mem_append.mp ht with ht | ht
      · cases p with
        | token kind w =>
          obtain rfl := List.mem_singleton.mp ht
          exact ⟨w, by simp, rfl⟩
        | _ => cases ht
      · obtain ⟨w, hw, hlexeme⟩ := hall t ht
        exact ⟨w, List.mem_cons_of_mem p hw, hlexeme⟩

/-! ## The whole text

With nothing before it, the first piece is on the first line. -/

/-- The tokens of a text are lexemes, and the end comes last. -/
theorem scan_lexemes (source : String) :
    ∃ ts eof, (scan source).tokens = ts ++ [eof] ∧ eof.kind = .eof ∧
      ∀ t ∈ ts, ∃ w, Lexeme t.kind w ∧ t.lexeme = String.ofList w := by
  obtain ⟨ts, eof, hts, heof, hall⟩ := tokensFrom_lexemes 1 (cut source.toList)
  refine ⟨ts, eof, hts, heof, fun t ht => ?_⟩
  obtain ⟨w, hw, hlexeme⟩ := hall t ht
  exact ⟨w, (isCut_cut source.toList).lexeme_of_mem hw, hlexeme⟩

/-- **The scan of a text reads its cut.** A text has exactly one cut into longest pieces, in which a string
that is not closed comes last. Its tokens are the lexemes of the cut in order, then the end; its diagnostics
are the complaints about the other pieces in order; all on the lines on which their pieces end. -/
theorem scan_reads_cut (source : String) :
    ∃ ps, IsCut source.toList ps ∧ (∀ qs, IsCut source.toList qs → qs = ps)
      ∧ (∀ before rest after, ps = before ++ .unterminated rest :: after → after = [])
      ∧ (∀ kind lexeme, .token kind lexeme ∈ ps → ∀ k ∈ Kind.keywords.map (·.2),
          kind = k ↔ (String.ofList lexeme, k) ∈ Kind.keywords)
      ∧ (∃ ts, (scan source).tokens = ts ++ [.eof (1 + source.toList.count '\n' : Nat)]
          ∧ List.Forall₂ (fun x t => t.Tells x.1 x.2.1 (endLine source.toList ps x.2.2))
              (lexemesFrom 0 ps) ts)
      ∧ (scan source).diagnostics
          = ps.zipIdx.filterMap fun (p, i) => p.complaint? (endLine source.toList ps i) := by
  have hcut := isCut_cut source.toList
  refine ⟨cut source.toList, hcut, fun qs hqs => hqs.unique hcut, ?_, ?_, ?_, ?_⟩
  · intro before rest after heq
    rw [heq] at hcut
    exact hcut.unterminated_last
  · intro kind lexeme hmem k hk
    exact (hcut.lexeme_of_mem hmem).keyword_iff hk
  · exact tokensFrom_reads source.toList [] _ hcut.flatMap_text
  · exact diagnosticsFrom_reads source.toList [] _ hcut.flatMap_text

end LoxLang
