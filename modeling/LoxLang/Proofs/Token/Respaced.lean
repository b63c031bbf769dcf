import LoxLang.Proofs.Lines.Seam
import LoxLang.Proofs.Token.Scanned

/-!
# Lexemes with other space between them

The tokens of a text do not depend on what stands between them: blanks, newlines and comments can be exchanged for
others, as long as something separates each two neighbours.

* **`Spaced`** — a text that is made of words with space between them.
* **`Lexeme.fronts_before_space`** — a lexeme is a piece where it is followed by space.
* **`Spaced.isCut`** — the cut of lexemes with space between them.
* **`scan_spaced`** — the tokens of the text.
-/

namespace LoxLang

/-! ## Texts with space

Space is what the scanner passes over: blanks, newlines and comments that end with one. A text may begin and end with
it, and it has to stand between two words. -/

/-- Blanks, newlines and comments, each comment with the newline that ends it. -/
inductive Gap : List Char → Prop where
  | nil : Gap []
  | space {c : Char} {s : List Char} (hc : IsSpace c) (hs : Gap s) : Gap (c :: s)
  | comment {rest s : List Char} (hrest : '\n' ∉ rest) (hs : Gap s) : Gap ('/' :: '/' :: (rest ++ '\n' :: s))

/-- `Spaced ws s`: the text `s` is made of the words `ws` in order. Between two neighbours there is a blank or a
newline, and any gap behind it. -/
inductive Spaced : List (List Char) → List Char → Prop where
  | nil : Spaced [] []
  | single (w : List Char) : Spaced [w] w
  | cons {w w' : List Char} {ws : List (List Char)} {c : Char} {gap s : List Char} (hc : IsSpace c) (hgap : Gap gap)
      (hs : Spaced (w' :: ws) s) : Spaced (w :: w' :: ws) (w ++ c :: (gap ++ s))

/-- All tokens on one line. -/
def Lines.flat : Lines :=
  fun _ => 0

/-! ## Space in the cut

No lexeme but a string has white space in it, so that a lexeme ends where space begins. -/

theorem IsSpace.ne_slash {c : Char} (h : IsSpace c) : c ≠ '/' := by
  rcases h with rfl | rfl | rfl | rfl <;> decide

/-- A lexeme is the piece that stands where it is followed by space or by nothing. -/
theorem Lexeme.fronts_before_space {k : Kind} {w s : List Char} (h : Lexeme k w) (hs : ∀ c ∈ s.head?, IsSpace c) :
    (Piece.token k w).Fronts (w ++ s) := by
  refine ⟨h, List.prefix_append w s, fun hslash => ?_, fun k' w' h' hpre => ?_⟩
  · -- two slashes would be the lexeme and what follows it
    obtain ⟨c, w, rfl⟩ := List.exists_cons_of_ne_nil h.ne_nil
    obtain ⟨rfl, hrest⟩ := List.cons_prefix_cons.mp hslash
    obtain rfl := lexeme_slash h
    obtain ⟨after, rfl⟩ := hrest
    exact (hs '/' rfl).ne_slash rfl
  · cases s with
    | nil => exact (List.append_nil w ▸ hpre).length_le
    | cons c s =>
      rcases prefix_before hpre with hpre | hpast
      · exact hpre.length_le
      · have hpast : w ++ [] ++ [c] <+: w' := by rwa [List.append_nil]
        exact absurd hpast (h.not_past_space h' (hs c rfl))

/-- A blank or a newline in front of other pieces. -/
theorem IsCut.space {c : Char} {s : List Char} {ps : List Piece} (h : IsCut s ps) (hc : IsSpace c) :
    ∃ p : Piece, IsCut (c :: s) (p :: ps) ∧ p.Sound ∧ p.token? 0 = none := by
  by_cases hnew : c = '\n'
  · subst hnew
    have hfront : Piece.newline.Fronts (Piece.newline.text ++ s) := List.prefix_append _ _
    exact ⟨.newline, .cons hfront h, trivial, rfl⟩
  · have hblank : c = ' ' ∨ c = '\r' ∨ c = '\t' := by
      rcases hc with rfl | rfl | rfl | rfl <;> simp_all
    have hfront : (Piece.blank c).Fronts ((Piece.blank c).text ++ s) := ⟨hblank, List.prefix_append _ _⟩
    exact ⟨.blank c, .cons hfront h, trivial, rfl⟩

/-- A gap in front of other pieces adds no token. -/
theorem IsCut.gap {gap s : List Char} {ps : List Piece} (h : IsCut s ps) (hps : ∀ p ∈ ps, p.Sound)
    (hgap : Gap gap) :
    ∃ qs, IsCut (gap ++ s) qs ∧ (∀ q ∈ qs, q.Sound) ∧ qs.filterMap (·.token? 0) = ps.filterMap (·.token? 0) := by
  induction hgap with
  | nil => exact ⟨ps, h, hps, rfl⟩
  | space hc _ ih =>
    obtain ⟨qs, hqs, hsound, htokens⟩ := ih
    obtain ⟨q, hq, hq', htoken⟩ := hqs.space hc
    exact ⟨q :: qs, hq, List.forall_mem_cons.mpr ⟨hq', hsound⟩, by rw [List.filterMap_cons_none htoken, htokens]⟩
  | @comment rest gap hrest _ ih =>
    obtain ⟨qs, hqs, hsound, htokens⟩ := ih
    have hnew : Piece.newline.Fronts (Piece.newline.text ++ (gap ++ s)) := List.prefix_append _ _
    have hcomment : (Piece.comment rest).Fronts ((Piece.comment rest).text ++ '\n' :: (gap ++ s)) :=
      ⟨hrest, '\n' :: (gap ++ s), rfl, .inr rfl⟩
    refine ⟨.comment rest :: .newline :: qs, ?_, ?_, htokens⟩
    · have hcut := IsCut.cons hcomment (.cons hnew hqs)
      simpa only [Piece.text, List.cons_append, List.append_assoc] using hcut
    · exact List.forall_mem_cons.mpr ⟨trivial, List.forall_mem_cons.mpr ⟨trivial, hsound⟩⟩

/-! ## The cut

By induction on the words: what is in front of the text is space, or the first word. -/

/-- The piece of a token, in front of space. -/
theorem Token.Scanned.fronts {t : Token} (h : t.Scanned) (heof : t.kind ≠ .eof) {s : List Char}
    (hs : ∀ c ∈ s.head?, IsSpace c) :
    ∃ p : Piece, p.text = t.lexeme.toList ∧ p.Fronts (p.text ++ s) ∧ p.Sound ∧
      p.token? 0 = some (t.moved .flat) := by
  obtain ⟨w, hw, hlexeme, hliteral⟩ := h heof
  refine ⟨.token t.kind w, ?_, hw.fronts_before_space hs, trivial, ?_⟩
  · rw [hlexeme, String.toList_ofList]
    rfl
  · rw [Piece.token?, ← hlexeme, ← hliteral]
    rfl

/-- Lexemes with space between them are cut into these lexemes and the space. -/
theorem Spaced.isCut {ts : List Token} {s : List Char} (h : Spaced (ts.map (·.lexeme.toList)) s)
    (hts : ∀ t ∈ ts, t.Scanned ∧ t.kind ≠ .eof) :
    ∃ ps, IsCut s ps ∧ (∀ p ∈ ps, p.Sound) ∧ ps.filterMap (·.token? 0) = ts.map (·.moved .flat) := by
  induction ts generalizing s with
  | nil =>
    cases h
    exact ⟨[], .nil, List.forall_mem_nil _, rfl⟩
  | cons t ts ih =>
    obtain ⟨⟨hscanned, heof⟩, hts⟩ := List.forall_mem_cons.mp hts
    cases ts with
    | nil =>
      cases h
      obtain ⟨p, htext, hfront, hp, htoken⟩ := hscanned.fronts heof (s := []) (fun _ hc => nomatch hc)
      refine ⟨[p], ?_, List.forall_mem_singleton.mpr hp, ?_⟩
      · have hcut := IsCut.cons hfront .nil
        rwa [htext, List.append_nil] at hcut
      · rw [List.filterMap_cons_some htoken]
        rfl
    | cons u ts =>
      rw [List.map_cons, List.map_cons] at h
      cases h with
      | @cons _ _ _ c gap s hc hgap hs =>
        -- what stands behind the separator, the separator itself, then the lexeme
        obtain ⟨ps, hps, hsound, htokens⟩ := ih hs hts
        obtain ⟨qs, hqs, hsound, hgap⟩ := hps.gap hsound hgap
        obtain ⟨q, hq, hq', hspace⟩ := hqs.space hc
        obtain ⟨p, htext, hfront, hp, htoken⟩ :=
          hscanned.fronts heof (s := c :: (gap ++ s)) (fun _ hd => Option.mem_some_iff.mp hd ▸ hc)
        refine ⟨p :: q :: qs, ?_, ?_, ?_⟩
        · have hcut := IsCut.cons hfront hq
          rwa [htext] at hcut
        · exact List.forall_mem_cons.mpr ⟨hp, List.forall_mem_cons.mpr ⟨hq', hsound⟩⟩
        · rw [List.filterMap_cons_some htoken, List.filterMap_cons_none hspace, hgap, htokens]
          rfl

/-! ## The tokens

Tokens without their lines are the same for all texts of the same words. -/

/-- Without lines, the tokens of pieces are those of the single pieces. -/
theorem lexedFrom_flat (line : Nat) (ps : List Piece) :
    (lexedFrom line ps).map (·.moved .flat) = ps.filterMap (·.token? 0) := by
  induction ps generalizing line with
  | nil => rfl
  | cons p ps ih =>
    rw [lexedFrom, List.map_append, ih]
    cases p <;> rfl

theorem lexed_scanned {source : String} {t : Token} (h : t ∈ lexed source) : t.Scanned := by
  apply scan_scanned source
  rw [scan_tokens]
  exact List.mem_append_left _ h

/-- The lexemes of a text are scanned again to the same tokens, whatever space is put between them. -/
theorem scan_spaced {source text : String} (h : Spaced ((lexed source).map (·.lexeme.toList)) text.toList) :
    (scan text).diagnostics = [] ∧ (lexed text).map (·.moved .flat) = (lexed source).map (·.moved .flat) := by
  obtain ⟨ps, hps, hsound, htokens⟩ := h.isCut fun t ht => ⟨lexed_scanned ht, kind_of_mem_lexed ht⟩
  obtain rfl := (isCut_cut text.toList).unique hps
  exact ⟨sound_of_diagnosticsFrom.mpr hsound, (lexedFrom_flat 1 _).trans htokens⟩

end LoxLang
