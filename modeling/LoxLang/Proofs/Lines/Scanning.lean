import LoxLang.Proofs.Lines.Machines
import LoxLang.Proofs.Lines.Seam

/-!
# Scanning line by line

A text can be scanned in parts if it is cut at newlines outside of strings. What a scan makes of the part behind such
a newline does not depend on the part before it, but for the number of its lines.

* **`diagnosticsFrom_append`**, **`diagnosticsFrom_down`** — the diagnostics of pieces behind others.
* **`scan_append_newline`** — the scan of two parts.
-/

namespace LoxLang

/-! ## Diagnostics of pieces behind others

A piece knows no lines. The scan counts the newlines before it and gives that number to what it says, so that a piece
behind `k` more newlines says the same `k` lines further down. -/

/-- A diagnostic so many lines further down. -/
def Diagnostic.down (k : Nat) (d : Diagnostic) : Diagnostic :=
  { d.moved (Lines.down k) with line? := d.line?.map (· + k) }

theorem Piece.diagnostic?_down (p : Piece) (line k : Nat) :
    p.diagnostic? (line + k) = (p.diagnostic? line).map (·.down k) := by
  cases p <;> rfl

/-- Pieces behind others are scanned from the line these end on. -/
theorem diagnosticsFrom_append (line : Nat) (ps qs : List Piece) :
    diagnosticsFrom line (ps ++ qs) = diagnosticsFrom line ps ++ diagnosticsFrom (line + newlinesOf ps) qs := by
  induction ps generalizing line with
  | nil => rfl
  | cons p ps ih =>
    rw [List.cons_append, diagnosticsFrom, diagnosticsFrom, ih, newlinesOf, ← Nat.add_assoc, List.append_assoc]

theorem diagnosticsFrom_down (line k : Nat) (ps : List Piece) :
    diagnosticsFrom (line + k) ps = (diagnosticsFrom line ps).map (·.down k) := by
  induction ps generalizing line with
  | nil => rfl
  | cons p ps ih =>
    have hline : line + k + p.newlines = line + p.newlines + k := by omega
    rw [diagnosticsFrom, diagnosticsFrom, hline, ih, p.diagnostic?_down, List.map_append, Option.toList_map]

/-- A string that is left open is reported. -/
theorem closed_of_diagnosticsFrom {line : Nat} {ps : List Piece}
    (h : ∀ d ∈ diagnosticsFrom line ps, d.cause ≠ .unterminatedString) : ∀ p ∈ ps, p.Closed := by
  induction ps generalizing line with
  | nil => exact List.forall_mem_nil _
  | cons p ps ih =>
    obtain ⟨hp, hps⟩ := List.forall_mem_append.mp h
    refine List.forall_mem_cons.mpr ⟨?_, ih hps⟩
    cases p with
    | unterminated rest => exact absurd rfl (hp _ List.mem_cons_self)
    | _ => trivial

/-! ## Two parts

The cut of the joined text is the two cuts with the newline between them, by `cut_join`; tokens and diagnostics are read
off from it. -/

/-- **Scanning is compositional over lines.** If the first part leaves no string open, the tokens of a text in two
parts are those of the first part but for its end, and those of the second part further down by the number of lines of
the first one. So are the diagnostics. -/
theorem scan_append_newline {a b : String}
    (h : ∀ d ∈ (scan a).diagnostics, d.cause ≠ .unterminatedString) :
    ∃ ts, (scan a).tokens = ts ++ [.eof (1 + newlines a : Nat)] ∧
      (scan (a ++ "\n" ++ b)).tokens = ts ++ (scan b).tokens.map (·.moved (Lines.down (newlines a + 1))) ∧
      (scan (a ++ "\n" ++ b)).diagnostics
        = (scan a).diagnostics ++ (scan b).diagnostics.map (·.down (newlines a + 1)) := by
  have hclosed : ∀ p ∈ cut a.toList, p.Closed := closed_of_diagnosticsFrom h
  have hcut := cut_join (B := b) hclosed
  refine ⟨lexed a, scan_tokens a, ?_, ?_⟩
  · have hend : Token.eof (1 + newlines (a ++ "\n" ++ b) : Nat)
        = (Token.eof (1 + newlines b : Nat)).moved (Lines.down (newlines a + 1)) := by
      -- the newline between the parts counts as well
      have hsum : newlines (a ++ "\n" ++ b) = newlines b + (newlines a + 1) := by
        rw [← newlinesOf_cut, hcut, newlinesOf_eq_count, List.flatMap_append, List.flatMap_cons, List.count_append,
          List.count_append, ← newlinesOf_eq_count, ← newlinesOf_eq_count, newlinesOf_cut, newlinesOf_cut]
        show newlines a + (1 + newlines b) = _
        omega
      rw [hsum, ← Nat.add_assoc, Int.natCast_add]
      rfl
    rw [scan_tokens, scan_tokens, lexed_join hclosed, List.append_assoc, List.map_append, hend]
    rfl
  · show diagnosticsFrom 1 (cut (a ++ "\n" ++ b).toList) = _
    have hline : 1 + newlines a + Piece.newline.newlines = 1 + (newlines a + 1) := rfl
    rw [hcut, diagnosticsFrom_append, newlinesOf_cut, diagnosticsFrom, hline, diagnosticsFrom_down]
    rfl

/-- A number that ends in a dot and an operator stand before the newlines, a digit and an equals sign behind them;
both parts have a string of two lines or a character that begins nothing. -/
theorem scan_append_newline_partial_lexemes :
    let a := "\"s\nt\" @ 1."
    let b := "5 <\n= #"
    (∀ d ∈ (scan a).diagnostics, d.cause ≠ .unterminatedString) ∧
      ∃ ts, (scan a).tokens = ts ++ [.eof (1 + newlines a : Nat)] ∧
        (scan (a ++ "\n" ++ b)).tokens = ts ++ (scan b).tokens.map (·.moved (Lines.down (newlines a + 1))) ∧
        (scan (a ++ "\n" ++ b)).diagnostics
          = (scan a).diagnostics ++ (scan b).diagnostics.map (·.down (newlines a + 1)) := by
  intro a b
  have hclosed : ∀ d ∈ (scan a).diagnostics, d.cause ≠ .unterminatedString := by
    have hcut : cut a.toList = [.token .string ['"', 's', '\n', 't', '"'], .blank ' ', .unexpected '@', .blank ' ',
        .token .number ['1'], .token .dot ['.']] := by decide
    show ∀ d ∈ diagnosticsFrom 1 (cut a.toList), _
    rw [hcut]
    decide
  exact ⟨hclosed, scan_append_newline hclosed⟩

end LoxLang
