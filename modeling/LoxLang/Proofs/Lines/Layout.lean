import LoxLang.Proofs.Lines.Parser
import LoxLang.Proofs.Scope.Resolved
import LoxLang.Proofs.Token.Respaced

/-!
# Layout

What stands between the lexemes of a text has no meaning: with any other space between them they are scanned to the
same tokens and parsed to the same program, with the same complaints. Only the lines differ.

* **`layout_carries_no_meaning`** — two texts of the same lexemes.
-/

namespace LoxLang

/-- **Layout carries no meaning.** Let the lexemes of a text, which may have errors of the scanner in it, be put
together in order with space between each two neighbours. Then nothing is wrong with the new text for the scanner. It
has the same tokens but for their lines, and the parser makes the same of it, also but for the lines. -/
theorem layout_carries_no_meaning {source text : String} {ts : List Token} {line : Int}
    (hsource : (scan source).tokens = ts ++ [.eof line])
    (htext : Spaced (ts.map (·.lexeme.toList)) text.toList) :
    (scan text).diagnostics = [] ∧
      (∃ ts' line', (scan text).tokens = ts' ++ [.eof line'] ∧ ts'.map (·.moved .flat) = ts.map (·.moved .flat)) ∧
      ∃ parsed parsed', parse (scan source).tokens = some parsed ∧ parse (scan text).tokens = some parsed' ∧
        parsed'.moved .flat = parsed.moved .flat := by
  obtain ⟨rfl, -⟩ := List.append_inj' (hsource.symm.trans (scan_tokens source)) rfl
  obtain ⟨hclean, htokens⟩ := scan_spaced htext
  refine ⟨hclean, ⟨lexed text, _, scan_tokens text, htokens⟩, ?_⟩
  obtain ⟨program, ds, hparse, -⟩ := parse_scan source
  obtain ⟨program', ds', hparse', -⟩ := parse_scan text
  refine ⟨_, _, hparse, hparse', ?_⟩
  -- both lists of tokens are the same on one line
  have hflat : (scan text).tokens.map (·.moved .flat) = (scan source).tokens.map (·.moved .flat) := by
    rw [scan_tokens, scan_tokens, List.map_append, List.map_append, htokens]
    rfl
  have hparsed := parse_moved .flat (scan text).tokens
  rw [hflat, parse_moved, hparse, hparse'] at hparsed
  exact (Option.some.inj hparsed).symm

/-- A slash behind a comment, a number before a dot, and errors in the text that the lexemes come from. -/
theorem layout_carries_no_meaning_comment :
    let source := "a/1.@\"open"
    let text := "a // x\n/\n1\t."
    (scan source).tokens = lexed source ++ [.eof (1 + newlines source : Nat)] ∧
      Spaced ((lexed source).map (·.lexeme.toList)) text.toList ∧
      (scan text).diagnostics = [] ∧
      (∃ ts' line', (scan text).tokens = ts' ++ [.eof line'] ∧
        ts'.map (·.moved .flat) = (lexed source).map (·.moved .flat)) ∧
      ∃ parsed parsed', parse (scan source).tokens = some parsed ∧ parse (scan text).tokens = some parsed' ∧
        parsed'.moved .flat = parsed.moved .flat := by
  intro source text
  -- both texts are cut by evaluation; the theorem is used for the lines they differ in
  have hcut : cut source.toList = [.token .identifier ['a'], .token .slash ['/'], .token .number ['1'],
      .token .dot ['.'], .unexpected '@', .unterminated ['o', 'p', 'e', 'n']] := by decide
  have htext : Spaced ((lexed source).map (·.lexeme.toList)) text.toList := by
    have hwords : (lexed source).map (·.lexeme.toList) = [['a'], ['/'], ['1'], ['.']] := by
      rw [lexed, hcut]
      rfl
    have hcomment : Gap ['/', '/', ' ', 'x', '\n'] := @Gap.comment [' ', 'x'] [] (by decide) .nil
    have hspaced := Spaced.cons (w := ['a']) (c := ' ') (by decide) hcomment <|
      .cons (w := ['/']) (c := '\n') (by decide) .nil <|
      .cons (w := ['1']) (c := '\t') (by decide) .nil (.single ['.'])
    have hlist : text.toList = ['a', ' ', '/', '/', ' ', 'x', '\n', '/', '\n', '1', '\t', '.'] := by decide
    rw [hwords, hlist]
    exact hspaced
  have hsource := scan_tokens source
  exact ⟨hsource, htext, layout_carries_no_meaning hsource htext⟩

end LoxLang
