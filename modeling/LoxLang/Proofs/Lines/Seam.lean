import LoxLang.Proofs.Lines.Trees
import LoxLang.Proofs.Token.Reading

/-!
# The seam between two texts

A newline ends everything that may stand before it but a string. So the pieces of two texts with a newline between
them are the pieces of each, if the first one leaves no string open.

* **`Piece.Fronts.before_newline`** — a piece of the first text stays where it is.
* **`IsCut.join`** — the cut of the joined text.
* **`lexed_join`** — its tokens: those of the first text, then those of the second on later lines.
-/

namespace LoxLang

/-! ## Pieces before a newline

Longest match is decided by looking at what comes after. A piece that would have been longer with other text behind it
might be longer here too; but no lexeme other than a string contains a newline, so with a newline behind it none is. -/

/-- Nothing is wrong with the piece. -/
def Piece.Sound : Piece → Prop
  | .unexpected _ | .unterminated _ => False
  | _ => True

/-- The piece is not a string that is left open. -/
def Piece.Closed : Piece → Prop
  | .unterminated _ => False
  | _ => True

/-- A piece without a complaint is in particular not an open string. -/
theorem Piece.Sound.closed {p : Piece} (h : p.Sound) : p.Closed := by
  cases p <;> first | exact h.elim | trivial

/-- A beginning of a joined text ends in the first text or goes past the character between the two. -/
theorem prefix_before {w s t : List Char} {c : Char} (h : w <+: s ++ c :: t) : w <+: s ∨ s ++ [c] <+: w := by
  have hs : s ++ [c] <+: s ++ c :: t := ⟨t, by rw [List.append_assoc, List.singleton_append]⟩
  by_cases hlen : w.length ≤ s.length
  · exact .inl (List.prefix_of_prefix_length_le h (List.prefix_append _ _) hlen)
  · apply Or.inr
    apply List.prefix_of_prefix_length_le hs h
    rw [List.length_append, List.length_singleton]
    omega

/-- A blank or a newline. -/
def IsSpace (c : Char) : Prop :=
  c = ' ' ∨ c = '\t' ∨ c = '\r' ∨ c = '\n'

instance (c : Char) : Decidable (IsSpace c) := inferInstanceAs (Decidable (_ ∨ _))

/-- White space does not continue a number. -/
theorem IsSpace.not_isDigit {c : Char} (h : IsSpace c) : ¬ IsDigit c := by
  rcases h with rfl | rfl | rfl | rfl <;> decide

/-- White space does not continue a word. -/
theorem IsSpace.not_isLetter {c : Char} (h : IsSpace c) : ¬ IsLetter c := by
  rcases h with rfl | rfl | rfl | rfl <;> decide

/-- Strings alone have blanks and newlines in them. -/
theorem Lexeme.string_of_space {k : Kind} {w : List Char} {c : Char} (h : Lexeme k w) (hc : IsSpace c)
    (hmem : c ∈ w) : ∃ body, w = '"' :: (body ++ ['"']) ∧ '"' ∉ body := by
  -- any other lexeme consists of characters that are not blank
  cases h with
  | fixed h =>
    have hall : ∀ p ∈ fixedLexemes, p.1.all (fun d => !decide (IsSpace d)) = true := by decide
    have hnone := List.all_eq_true.mp (hall _ h) c hmem
    exact absurd hc (of_decide_eq_false (Bool.not_eq_true' _ ▸ hnone))
  | whole _ hds => exact absurd (hds c hmem) hc.not_isDigit
  | fraction _ hds _ hfs =>
    rcases List.mem_append.mp hmem with hmem | hmem
    · exact absurd (hds c hmem) hc.not_isDigit
    · rcases List.mem_cons.mp hmem with rfl | hmem
      · exact absurd hc (by decide)
      · exact absurd (hfs c hmem) hc.not_isDigit
  | @string body hbody => exact ⟨body, rfl, hbody⟩
  | keyword hk => exact absurd ((letters_of_keyword hk).2 c hmem) hc.not_isLetter
  | identifier hd hw _ =>
    rcases List.mem_cons.mp hmem with rfl | hmem
    · exact absurd hd hc.not_isLetter
    · exact absurd (hw c hmem) (not_or.mpr ⟨hc.not_isLetter, hc.not_isDigit⟩)

/-- A lexeme that goes past a blank or a newline does not begin with another lexeme that ends before it: both would be
strings, and a string ends at its first quote. -/
theorem Lexeme.not_past_space {k k' : Kind} {w w' s : List Char} {c : Char} (h : Lexeme k w) (h' : Lexeme k' w')
    (hc : IsSpace c) : ¬ w ++ s ++ [c] <+: w' := by
  intro hpre
  obtain ⟨body', rfl, hbody'⟩ := h'.string_of_space hc (hpre.subset (by simp))
  obtain ⟨d, w, rfl⟩ := List.exists_cons_of_ne_nil h.ne_nil
  -- both begin with the same character, which is a quote
  rw [List.append_assoc, List.cons_append] at hpre
  obtain ⟨rfl, hrest⟩ := List.cons_prefix_cons.mp hpre
  obtain ⟨-, body, rfl, -⟩ := h.string_of_quote
  have hlen := hrest.length_le
  -- so the closing quote of the first string lies inside the second one
  have hquote : body ++ ['"'] <+: body' ++ ['"'] := (List.prefix_append _ _).trans hrest
  have hinner : body ++ ['"'] <+: body' := by
    apply List.prefix_of_prefix_length_le hquote (List.prefix_append _ _)
    simp only [List.length_append, List.length_singleton] at hlen ⊢
    omega
  exact hbody' (hinner.subset (by simp))

/-- A piece that leaves no string open still stands there when a newline and more text follow. -/
theorem Piece.Fronts.before_newline {p : Piece} {s : List Char} (h : p.Fronts (p.text ++ s)) (hclosed : p.Closed)
    (t : List Char) : p.Fronts (p.text ++ (s ++ '\n' :: t)) := by
  cases p with
  | blank c => exact ⟨h.1, List.prefix_append _ _⟩
  | newline => exact List.prefix_append _ _
  | comment rest =>
    obtain ⟨hrest, after, hafter, hend⟩ := h
    obtain rfl : s = after := by simpa [Piece.text] using hafter
    -- a comment at the end of the first text now ends before the newline
    refine ⟨hrest, s ++ '\n' :: t, rfl, .inr ?_⟩
    rcases hend with rfl | hend
    · rfl
    · rw [List.head?_append, hend]
      rfl
  | token k w =>
    obtain ⟨hlex, -, hcomment, hmax⟩ := h
    have htext : (Piece.token k w).text = w := rfl
    rw [htext] at hcomment hmax ⊢
    rw [← List.append_assoc]
    refine ⟨hlex, ⟨s ++ '\n' :: t, (List.append_assoc _ _ _).symm⟩, fun hslash => ?_, fun k' w' hlex' hpre => ?_⟩
    · rcases prefix_before hslash with hslash | hnew
      · exact hcomment hslash
      · exact absurd (hnew.subset (by simp : '\n' ∈ w ++ s ++ ['\n'])) (by decide)
    · -- a longer lexeme would have been there before, or goes past the newline
      rcases prefix_before hpre with hpre | hpast
      · exact hmax k' w' hlex' hpre
      · exact absurd hpast (hlex.not_past_space hlex' (by decide))
  | unexpected c =>
    obtain ⟨-, hno, hrest⟩ := h
    refine ⟨List.prefix_append _ _, fun k w hlex hpre => ?_, hrest⟩
    -- what begins here now goes past the newline, so it is a string and begins with a quote
    rw [← List.append_assoc] at hpre
    rcases prefix_before hpre with hpre | hpast
    · exact hno k w hlex hpre
    · obtain ⟨body, rfl, -⟩ := hlex.string_of_space (c := '\n') (by decide) (hpast.subset (by simp))
      obtain ⟨rfl, -⟩ := List.cons_prefix_cons.mp hpast
      exact hrest.2.2.2.2 rfl
  | unterminated => exact hclosed.elim

/-! ## The joined cut

A cut is determined by its pieces being in front of what is left. For the pieces of the first text that has just been
shown with the second text behind it, and for those of the second text nothing has changed. -/

/-- The pieces of two texts with a newline between them. -/
theorem IsCut.join {s t : List Char} {ps qs : List Piece} (h : IsCut s ps) (hclosed : ∀ p ∈ ps, p.Closed)
    (h' : IsCut t qs) : IsCut (s ++ '\n' :: t) (ps ++ .newline :: qs) := by
  induction h with
  | nil =>
    have hfront : Piece.newline.Fronts (Piece.newline.text ++ t) := List.prefix_append _ _
    exact .cons hfront h'
  | cons front _ ih =>
    obtain ⟨hp, hps⟩ := List.forall_mem_cons.mp hclosed
    rw [List.append_assoc]
    exact .cons (front.before_newline hp t) (ih hps)

/-- Without diagnostics nothing is wrong with any piece. -/
theorem sound_of_diagnosticsFrom {line : Nat} {ps : List Piece} :
    diagnosticsFrom line ps = [] ↔ ∀ p ∈ ps, p.Sound := by
  induction ps generalizing line with
  | nil => exact ⟨fun _ => List.forall_mem_nil _, fun _ => rfl⟩
  | cons p ps ih =>
    rw [diagnosticsFrom, List.append_eq_nil_iff, ih, List.forall_mem_cons]
    apply and_congr_left'
    cases p <;> simp [Piece.diagnostic?, Piece.Sound]

/-! ## The joined tokens

Tokens are listed here without the end token, which only the last of two texts contributes. -/

/-- The number of newlines of pieces. -/
def newlinesOf : List Piece → Nat
  | [] => 0
  | p :: ps => p.newlines + newlinesOf ps

/-- The tokens of pieces without the end of the text. -/
def lexedFrom (line : Nat) : List Piece → List Token
  | [] => []
  | p :: ps => (p.token? (line + p.newlines)).toList ++ lexedFrom (line + p.newlines) ps

/-- The tokens of a scan are those that have lexemes, and the end token on the last line. -/
theorem tokensFrom_eq (line : Nat) (ps : List Piece) :
    tokensFrom line ps = lexedFrom line ps ++ [.eof (line + newlinesOf ps : Nat)] := by
  induction ps generalizing line with
  | nil => rfl
  | cons p ps ih =>
    rw [tokensFrom, lexedFrom, ih, newlinesOf, ← Nat.add_assoc, List.append_assoc]

/-- Pieces behind others give their tokens from the line these end on. -/
theorem lexedFrom_append (line : Nat) (ps qs : List Piece) :
    lexedFrom line (ps ++ qs) = lexedFrom line ps ++ lexedFrom (line + newlinesOf ps) qs := by
  induction ps generalizing line with
  | nil => rfl
  | cons p ps ih =>
    rw [List.cons_append, lexedFrom, lexedFrom, ih, newlinesOf, ← Nat.add_assoc, List.append_assoc]

/-- Lines that lie so many further down. -/
def Lines.down (k : Nat) : Lines :=
  fun t => t.line + k

/-- The tokens of pieces further down are the same, moved. -/
theorem lexedFrom_down (line k : Nat) (ps : List Piece) :
    lexedFrom (line + k) ps = (lexedFrom line ps).map (·.moved (Lines.down k)) := by
  induction ps generalizing line with
  | nil => rfl
  | cons p ps ih =>
    have hline : line + k + p.newlines = line + p.newlines + k := by omega
    have hp : p.token? (line + p.newlines + k) = (p.token? (line + p.newlines)).map (·.moved (Lines.down k)) := by
      cases p <;> rfl
    rw [lexedFrom, lexedFrom, hline, ih, hp, List.map_append, Option.toList_map]

/-- The line of a token lies between those on which the pieces begin and end. -/
theorem line_of_mem_lexedFrom {line : Nat} {ps : List Piece} {t : Token} (h : t ∈ lexedFrom line ps) :
    line ≤ t.line ∧ t.line ≤ line + newlinesOf ps := by
  induction ps generalizing line with
  | nil => cases h
  | cons p ps ih =>
    have hsum : newlinesOf (p :: ps) = p.newlines + newlinesOf ps := rfl
    rcases List.mem_append.mp h with hp | hps
    · have hline : t.line = line + p.newlines := by
        cases p with
        | token k w =>
          obtain rfl := List.mem_singleton.mp hp
          rfl
        | _ => cases hp
      omega
    · have hline := ih hps
      omega

/-- The tokens of a text without its end. -/
def lexed (source : String) : List Token :=
  lexedFrom 1 (cut source.toList)

/-- The number of newlines of a text. -/
def newlines (source : String) : Nat :=
  source.toList.count '\n'

/-- To count the newlines of pieces is to count those of their texts, also of the ones inside of strings. -/
theorem newlinesOf_eq_count (ps : List Piece) : newlinesOf ps = (ps.flatMap Piece.text).count '\n' := by
  induction ps with
  | nil => rfl
  | cons p ps ih => rw [newlinesOf, ih, List.flatMap_cons, List.count_append, Piece.newlines]

/-- The pieces of a cut make up the text, so there are as many newlines in them. -/
theorem newlinesOf_cut (source : String) : newlinesOf (cut source.toList) = newlines source := by
  rw [newlinesOf_eq_count, (isCut_cut source.toList).flatMap_text, newlines]

/-- A scan gives the tokens with lexemes and an end token on the last line of the text. -/
theorem scan_tokens (source : String) :
    (scan source).tokens = lexed source ++ [.eof (1 + newlines source : Nat)] := by
  rw [← newlinesOf_cut]
  exact tokensFrom_eq 1 _

/-- No token with a lexeme is taken for the end. -/
theorem kind_of_mem_lexed {source : String} {t : Token} (h : t ∈ lexed source) : t.kind ≠ .eof := by
  obtain ⟨ts, eof, htokens, -, hlexemes⟩ := scan_lexemes source
  rw [scan_tokens] at htokens
  obtain ⟨rfl, -⟩ := List.append_inj' htokens rfl
  obtain ⟨w, hw, -⟩ := hlexemes t h
  exact hw.kind_ne_eof

/-- The line of a token is one of the text. -/
theorem line_of_mem_lexed {source : String} {t : Token} (h : t ∈ lexed source) :
    1 ≤ t.line ∧ t.line ≤ newlines source + 1 := by
  have hline := line_of_mem_lexedFrom h
  rw [newlinesOf_cut] at hline
  omega

section

variable {A B : String}

/-- The joined text is cut into the pieces of both and the newline, if the first one leaves no string open. -/
theorem cut_join (hA : ∀ p ∈ cut A.toList, p.Closed) :
    cut (A ++ "\n" ++ B).toList = cut A.toList ++ .newline :: cut B.toList := by
  have htext : (A ++ "\n" ++ B).toList = A.toList ++ '\n' :: B.toList := by
    simp only [String.toList_append, List.append_assoc]
    rfl
  rw [htext]
  exact (isCut_cut _).unique ((isCut_cut _).join hA (isCut_cut _))

/-- A text that is scanned without complaints leaves no string open. -/
theorem closed_of_clean (hA : (scan A).diagnostics = []) : ∀ p ∈ cut A.toList, p.Closed :=
  fun p hp => (sound_of_diagnosticsFrom.mp hA p hp).closed

/-- Nothing is wrong with two joined texts with which nothing is wrong. -/
theorem scan_join (hA : (scan A).diagnostics = []) (hB : (scan B).diagnostics = []) :
    (scan (A ++ "\n" ++ B)).diagnostics = [] := by
  show diagnosticsFrom 1 _ = []
  rw [cut_join (closed_of_clean hA), sound_of_diagnosticsFrom]
  have hsoundA := sound_of_diagnosticsFrom.mp hA
  have hsoundB := sound_of_diagnosticsFrom.mp hB
  exact List.forall_mem_append.mpr ⟨hsoundA, List.forall_mem_cons.mpr ⟨trivial, hsoundB⟩⟩

/-- The tokens of the second text stand below all lines of the first one. -/
theorem lexed_join (hA : ∀ p ∈ cut A.toList, p.Closed) :
    lexed (A ++ "\n" ++ B) = lexed A ++ (lexed B).map (·.moved (Lines.down (newlines A + 1))) := by
  have hline : 1 + newlines A + Piece.newline.newlines = 1 + (newlines A + 1) := by
    show 1 + newlines A + 1 = _
    omega
  rw [lexed, cut_join hA, lexedFrom_append, newlinesOf_cut, lexedFrom, hline, lexedFrom_down]
  rfl

end

end LoxLang
