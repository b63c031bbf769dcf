import LoxLang.Proofs.Token.Lexeme
import Mathlib.Data.List.TakeWhile

/-!
# The cut of a text

`Piece.ofCons` reads a piece from left to right; `Piece.Fronts` says which piece stands there. The two agree:

* **`fronts_ofCons`** — what is read stands at the front.
* **`fronts_unique`** — nothing else stands there, so a text has one cut.
* **`isCut_cut`** — `cut` is that cut.

With the lines counted piece by piece this gives the scan of a text as a reading of its cut
(`scan_reads_cut`).
-/

namespace LoxLang

/-! ## Longest runs

The scanner takes characters while a test holds. That is the longest beginning of which all characters pass the test. -/

/-- No beginning that passes the test is longer. -/
theorem length_le_takeWhile {p : Char → Bool} {w s : List Char} (hpre : w <+: s)
    (hw : ∀ c ∈ w, p c = true) : w.length ≤ (s.takeWhile p).length := by
  obtain ⟨rest, rfl⟩ := hpre
  rw [List.takeWhile_append_of_pos hw, List.length_append]
  omega

/-- A run that ends at a character outside of the class is the whole run. -/
theorem takeWhile_of_stop {p : Char → Bool} {w s rest : List Char} {c : Char}
    (hw : ∀ d ∈ w, p d = true) (hc : p c = false) (hs : s = w ++ c :: rest) :
    s.takeWhile p = w ∧ s.dropWhile p = c :: rest := by
  subst hs
  rw [List.takeWhile_append_of_pos hw, List.dropWhile_append_of_pos hw]
  simp [hc]

/-! ## Numbers

A point belongs to a number if digits follow it. -/

/-- A number is digits, or digits with a point and digits. -/
theorem number_cases {w : List Char} (h : Lexeme .number w) :
    (∀ c ∈ w, IsDigit c)
      ∨ ∃ ds f fs, w = ds ++ '.' :: f :: fs ∧ (∀ c ∈ ds, IsDigit c) ∧ ∀ c ∈ f :: fs, IsDigit c := by
  generalize hk : Kind.number = k at h
  cases h with
  | fixed h =>
    subst hk
    have hall : ∀ p ∈ fixedLexemes, p.2 ≠ .number := by decide
    exact absurd rfl (hall _ h)
  | whole _ hds => exact .inl hds
  | @fraction ds fs _ hds fne hfs =>
    obtain ⟨f, fs, rfl⟩ := List.exists_cons_of_ne_nil fne
    exact .inr ⟨ds, f, fs, rfl, hds, hfs⟩
  | string _ => cases hk
  | keyword h =>
    subst hk
    have hall : ∀ p ∈ Kind.keywords, p.2 ≠ .number := by decide
    exact absurd rfl (hall _ h)
  | identifier _ _ _ => cases hk

/-- The number that is read is a lexeme at the front of the text. -/
theorem lexeme_numberLexeme {c : Char} (hc : IsDigit c) (cs : List Char) :
    Lexeme .number (Piece.numberLexeme c cs) ∧ Piece.numberLexeme c cs <+: c :: cs := by
  have hwhole : ∀ d ∈ c :: cs.takeWhile Char.isDigit, IsDigit d := by
    intro d hd
    rcases List.mem_cons.mp hd with rfl | hd
    · exact hc
    · exact isDigit_iff.mp (List.mem_takeWhile_imp hd)
  have hpre : c :: cs.takeWhile Char.isDigit <+: c :: cs :=
    (List.prefix_cons_inj c).mpr (List.takeWhile_prefix _)
  unfold Piece.numberLexeme
  split
  · rename_i d rest hdrop
    split
    · rename_i hd
      have hfrac : ∀ x ∈ d :: rest.takeWhile Char.isDigit, IsDigit x := by
        intro x hx
        rcases List.mem_cons.mp hx with rfl | hx
        · exact isDigit_iff.mp hd
        · exact isDigit_iff.mp (List.mem_takeWhile_imp hx)
      refine ⟨.fraction (by simp) hwhole (by simp) hfrac, ?_⟩
      -- the text is the run of digits, the point, and what follows it
      have hcs : cs = cs.takeWhile Char.isDigit ++ '.' :: d :: rest := by
        rw [← hdrop, List.takeWhile_append_dropWhile]
      obtain ⟨after, hafter⟩ := List.takeWhile_prefix (l := rest) Char.isDigit
      refine ⟨after, ?_⟩
      conv_rhs => rw [hcs, ← hafter]
      simp
    · exact ⟨.whole (by simp) hwhole, hpre⟩
  · exact ⟨.whole (by simp) hwhole, hpre⟩

/-- No longer lexeme begins with the same digit. -/
theorem length_le_numberLexeme {k : Kind} {w : List Char} {c : Char} {cs : List Char}
    (h : Lexeme k w) (hc : IsDigit c) (hpre : w <+: c :: cs) :
    w.length ≤ (Piece.numberLexeme c cs).length := by
  -- what is read has at least the digits at the front
  have hwhole : (c :: cs.takeWhile Char.isDigit).length ≤ (Piece.numberLexeme c cs).length := by
    unfold Piece.numberLexeme
    split
    · split <;> simp
    · exact Nat.le_refl _
  have htake : (c :: cs).takeWhile Char.isDigit = c :: cs.takeWhile Char.isDigit := by
    rw [List.takeWhile_cons, if_pos (isDigit_iff.mpr hc)]
  -- only a number begins with a digit, so the other lexeme is one too
  have hnum : Lexeme .number w := by
    obtain ⟨d, w', rfl⟩ := List.exists_cons_of_ne_nil h.ne_nil
    obtain rfl := (List.cons_prefix_cons.mp hpre).1
    rwa [h.number_of_digit hc] at h
  rcases number_cases hnum with hall | ⟨ds, f, fs, rfl, hds, hfs⟩
  · have hle := length_le_takeWhile hpre fun x hx => isDigit_iff.mpr (hall x hx)
    rw [htake] at hle
    exact Nat.le_trans hle hwhole
  · -- the other one has a point and a digit behind it, so the reading has gone over the point as well
    obtain ⟨after, hafter⟩ := hpre
    have hsplit : c :: cs = ds ++ '.' :: f :: (fs ++ after) := by
      rw [← hafter]
      simp
    have hstop := takeWhile_of_stop (p := Char.isDigit) (fun x hx => isDigit_iff.mpr (hds x hx))
      (by decide) hsplit
    rw [htake, List.dropWhile_cons, if_pos (isDigit_iff.mpr hc)] at hstop
    have hf : f.isDigit = true := isDigit_iff.mpr (hfs f (by simp))
    have hle : fs.length ≤ ((fs ++ after).takeWhile Char.isDigit).length :=
      length_le_takeWhile (List.prefix_append _ _) fun x hx =>
        isDigit_iff.mpr (hfs x (List.mem_cons_of_mem _ hx))
    simp only [Piece.numberLexeme, hstop.1, hstop.2, hf, if_true, List.length_append,
      List.length_cons]
    omega

/-! ## Signs

A sign of two characters is taken where one of a single character would do too. -/

/-- A character of `Kind.ofSingle?` is a lexeme, and it begins no other. -/
theorem lexeme_single {c : Char} {k : Kind} (h : Kind.ofSingle? c = some k) :
    Lexeme k [c] ∧ c ≠ '/' ∧ ∀ k' w, Lexeme k' (c :: w) → w = [] := by
  have hall : ∀ p ∈ fixedLexemes, (Kind.ofSingle? (p.1.headD ' ')).isSome →
      p.1.length = 1 := by decide
  have hsign : (c :: [], k) ∈ fixedLexemes ∧ c ≠ '/' := by
    unfold Kind.ofSingle? at h
    split at h <;> cases h <;> decide
  obtain ⟨hd, hl, hq, -⟩ := head_of_fixed hsign.1
  refine ⟨.fixed hsign.1, hsign.2, fun k' w hw => ?_⟩
  have hlen := hall _ (hw.fixed_of_sign hd hl hq) (by simp [h])
  simpa using hlen

/-- An operator character is a lexeme alone and with an equals sign behind it, and begins no other. -/
theorem lexeme_pair {c : Char} {paired alone : Kind} (h : Kind.ofPair? c = some (paired, alone)) :
    Lexeme paired [c, '='] ∧ Lexeme alone [c] ∧ c ≠ '/'
      ∧ ∀ k w, Lexeme k (c :: w) → w = [] ∨ w = ['='] := by
  have hall : ∀ p ∈ fixedLexemes, (Kind.ofPair? (p.1.headD ' ')).isSome →
      p.1.tail = [] ∨ p.1.tail = ['='] := by decide
  have hsign : ([c, '='], paired) ∈ fixedLexemes ∧ ([c], alone) ∈ fixedLexemes ∧ c ≠ '/' := by
    unfold Kind.ofPair? at h
    split at h <;> cases h <;> decide
  obtain ⟨hd, hl, hq, -⟩ := head_of_fixed hsign.1
  refine ⟨.fixed hsign.1, .fixed hsign.2.1, hsign.2.2, fun k w hw => ?_⟩
  exact hall _ (hw.fixed_of_sign hd hl hq) (by simp [h])

/-- A slash is a lexeme and begins no other. -/
theorem lexeme_slash {k : Kind} {w : List Char} (h : Lexeme k ('/' :: w)) : w = [] := by
  have hall : ∀ p ∈ fixedLexemes, p.1.head? = some '/' → p.1.length = 1 := by decide
  have hlen := hall _ (h.fixed_of_sign (by decide) (by decide) (by decide)) rfl
  simpa using hlen

/-- What is no sign, digit, letter or quote begins no lexeme. -/
theorem not_lexeme_of_unknown {c : Char} (hs : Kind.ofSingle? c = none) (hp : Kind.ofPair? c = none)
    (hslash : c ≠ '/') (hd : ¬ IsDigit c) (hl : ¬ IsLetter c) (hq : c ≠ '"') {k : Kind} {w : List Char} :
    ¬ Lexeme k (c :: w) := by
  intro h
  have hall : ∀ p ∈ fixedLexemes, p.1.head?.all (fun d => decide ((Kind.ofSingle? d).isSome
      ∨ (Kind.ofPair? d).isSome ∨ d = '/')) = true := by decide
  rcases of_decide_eq_true (hall _ (h.fixed_of_sign hd hl hq)) with h | h | h
  · rw [hs] at h
    exact absurd h (by simp)
  · rw [hp] at h
    exact absurd h (by simp)
  · exact hslash h

/-! ## The piece at the front

By the first character, as the scanner decides. -/

/-- To see that a lexeme is the longest one, look at lexemes with the same first character. -/
theorem fronts_token {c : Char} {cs w : List Char} {k : Kind} (h : Lexeme k w) (hpre : w <+: c :: cs)
    (hcomment : c = '/' → cs.head? ≠ some '/')
    (hmax : ∀ k' w', Lexeme k' (c :: w') → c :: w' <+: c :: cs → (c :: w').length ≤ w.length) :
    (Piece.token k w).Fronts (c :: cs) := by
  refine ⟨h, hpre, ?_, ?_⟩
  · intro hslash
    obtain ⟨rfl, htail⟩ := List.cons_prefix_cons.mp hslash
    obtain ⟨after, rfl⟩ := htail
    exact hcomment rfl rfl
  · intro k' w' hw' hpre'
    obtain ⟨d, w', rfl⟩ := List.exists_cons_of_ne_nil hw'.ne_nil
    obtain rfl := (List.cons_prefix_cons.mp hpre').1
    exact hmax k' w' hw' hpre'

/-- An operator with the equals sign behind it, if there is one. -/
theorem fronts_operator {c : Char} {cs : List Char} {paired alone : Kind}
    (h : Kind.ofPair? c = some (paired, alone)) :
    (if cs.head? = some '=' then Piece.token paired [c, '='] else .token alone [c]).Fronts (c :: cs) := by
  obtain ⟨hpaired, halone, hslash, hno⟩ := lexeme_pair h
  split
  · rename_i hhead
    obtain ⟨cs, rfl⟩ := List.head?_eq_some_iff.mp hhead
    refine fronts_token hpaired (by simp) (fun h => absurd h hslash) fun k' w' hw' _ => ?_
    rcases hno k' w' hw' with rfl | rfl <;> simp
  · rename_i hhead
    refine fronts_token halone (by simp) (fun h => absurd h hslash) fun k' w' hw' hpre => ?_
    rcases hno k' w' hw' with rfl | rfl
    · simp
    · obtain ⟨after, hafter⟩ := (List.cons_prefix_cons.mp hpre).2
      exact absurd (by rw [← hafter]; rfl) hhead

/-- A comment goes up to the next newline or to the end. -/
theorem fronts_comment (rest : List Char) :
    (Piece.comment (rest.takeWhile (· != '\n'))).Fronts ('/' :: '/' :: rest) := by
  refine ⟨fun h => by simpa using List.mem_takeWhile_imp h, rest.dropWhile (· != '\n'), ?_, ?_⟩
  · rw [List.takeWhile_append_dropWhile]
  · cases hdrop : rest.dropWhile (· != '\n') with
    | nil => exact .inl rfl
    | cons d ds =>
      have hd := List.head_dropWhile_not (l := rest) (· != '\n') (by simp [hdrop])
      refine .inr ?_
      simpa [hdrop] using hd

/-- A text with a quote in it, split at the first one. -/
theorem split_at_quote {cs : List Char} (h : '"' ∈ cs) :
    '"' ∉ cs.takeWhile (· != '"') ∧ ∃ after, cs = cs.takeWhile (· != '"') ++ '"' :: after := by
  have hbody : '"' ∉ cs.takeWhile (· != '"') := fun h => by simpa using List.mem_takeWhile_imp h
  refine ⟨hbody, ?_⟩
  cases hdrop : cs.dropWhile (· != '"') with
  | nil =>
    have hmem : '"' ∈ cs.takeWhile (· != '"') := by
      rw [← List.append_nil (cs.takeWhile _), ← hdrop, List.takeWhile_append_dropWhile]
      exact h
    exact absurd hmem hbody
  | cons d ds =>
    have hd := List.head_dropWhile_not (l := cs) (· != '"') (by simp [hdrop])
    have hd : d = '"' := by simpa [hdrop] using hd
    rw [hd] at hdrop
    refine ⟨ds, ?_⟩
    rw [← hdrop, List.takeWhile_append_dropWhile]

/-- A string goes up to the next quote; without one it goes to the end of the text. -/
theorem fronts_string (cs : List Char) :
    (if cs.contains '"' then Piece.token .string ('"' :: cs.takeWhile (· != '"') ++ ['"'])
      else .unterminated cs).Fronts ('"' :: cs) := by
  split
  · rename_i hclosed
    obtain ⟨hbody, after, hafter⟩ := split_at_quote (by simpa using hclosed)
    refine fronts_token (.string hbody) ⟨after, ?_⟩ (fun h => absurd h (by decide)) fun k' w' hw' hpre => ?_
    · conv_rhs => rw [hafter]
      simp
    · -- any other string there ends at the same quote
      obtain ⟨-, body, rfl, hno⟩ := hw'.string_of_quote
      obtain ⟨rest, hrest⟩ := (List.cons_prefix_cons.mp hpre).2
      have hin : ∀ d ∈ body, (d != '"') = true := by
        intro d hd
        simp only [bne_iff_ne, ne_eq]
        rintro rfl
        exact hno hd
      have hsplit : cs = body ++ '"' :: rest := by
        rw [← hrest]
        simp
      have hstop := takeWhile_of_stop hin (by decide) hsplit
      rw [hstop.1]
      simp
  · rename_i hopen
    exact ⟨rfl, by simpa using hopen⟩

/-- A word goes on as long as letters and digits follow. -/
theorem fronts_word {c : Char} (hc : IsLetter c) (hslash : c ≠ '/') (cs : List Char) :
    (Piece.token (Kind.ofWord (String.ofList (c :: cs.takeWhile isWordRest)))
      (c :: cs.takeWhile isWordRest)).Fronts (c :: cs) := by
  refine fronts_token (lexeme_word hc fun d hd => ?_) ?_ (fun h => absurd h hslash)
    fun k' w' hw' hpre => ?_
  · exact isWordRest_iff.mp (List.mem_takeWhile_imp hd)
  · exact (List.prefix_cons_inj c).mpr (List.takeWhile_prefix _)
  · have hall := (hw'.word_of_letter hc).2
    have hle := length_le_takeWhile (List.cons_prefix_cons.mp hpre).2 fun d hd =>
      isWordRest_iff.mpr (hall d hd)
    simpa using hle

/-- The piece that is read stands at the front. -/
theorem fronts_ofCons (c : Char) (cs : List Char) : (Piece.ofCons c cs).Fronts (c :: cs) := by
  -- one case for each test, in the order in which the scanner makes them; a later case keeps what the earlier tests
  -- have denied
  unfold Piece.ofCons
  split
  · rename_i k hk
    obtain ⟨hlex, hslash, hno⟩ := lexeme_single hk
    refine fronts_token hlex (by simp) (fun h => absurd h hslash) fun k' w' hw' _ => ?_
    simp [hno k' w' hw']
  rename_i hsingle
  have hsingle : Kind.ofSingle? c = none := Option.eq_none_iff_forall_not_mem.mpr hsingle
  split
  · rename_i paired alone hk
    exact fronts_operator hk
  rename_i hpair
  have hpair : Kind.ofPair? c = none :=
    Option.eq_none_iff_forall_not_mem.mpr fun q hq => hpair q.1 q.2 hq
  split
  · rename_i hslash
    subst hslash
    split
    · exact fronts_comment _
    · rename_i hno
      refine fronts_token (.fixed (by decide)) (by simp) (fun _ hhead => ?_) fun k' w' hw' _ => ?_
      · obtain ⟨after, rfl⟩ := List.head?_eq_some_iff.mp hhead
        exact hno after rfl
      · simp [lexeme_slash hw']
  rename_i hslash
  split
  · rename_i hblank
    refine ⟨?_, by simp⟩
    simpa [isBlank, or_assoc] using hblank
  rename_i hblank
  have hblank : c ≠ ' ' ∧ c ≠ '\r' ∧ c ≠ '\t' := by
    simpa [isBlank, not_or, and_assoc] using hblank
  split
  · rename_i hnew
    subst hnew
    exact ⟨cs, rfl⟩
  rename_i hnew
  split
  · rename_i hquote
    subst hquote
    exact fronts_string cs
  rename_i hquote
  split
  · rename_i hdigit
    have hdigit := isDigit_iff.mp hdigit
    obtain ⟨hlex, hpre⟩ := lexeme_numberLexeme hdigit cs
    refine fronts_token hlex hpre (fun h => absurd h hslash) fun k' w' hw' hpre' => ?_
    exact length_le_numberLexeme hw' hdigit hpre'
  rename_i hdigit
  have hdigit : ¬ IsDigit c := fun h => hdigit (isDigit_iff.mpr h)
  split
  · rename_i hletter
    exact fronts_word (isWordStart_iff.mp hletter) hslash cs
  · rename_i hletter
    have hletter : ¬ IsLetter c := fun h => hletter (isWordStart_iff.mpr h)
    refine ⟨by simp, fun k w hw hpre => ?_, hblank.1, hblank.2.1, hblank.2.2, hnew, hquote⟩
    -- all tests have failed, and a lexeme would have passed one by its first character
    obtain ⟨d, w, rfl⟩ := List.exists_cons_of_ne_nil hw.ne_nil
    obtain rfl := (List.cons_prefix_cons.mp hpre).1
    exact not_lexeme_of_unknown hsingle hpair hslash hdigit hletter hquote hw

/-! ## One piece only

Two pieces at the front of one text are equal: tokens because both are the longest, the others because the first
character tells them. -/

/-- A piece at the front of a text is a beginning of the text, and not an empty one. -/
theorem Piece.Fronts.text_prefix {p : Piece} {s : List Char} (h : p.Fronts s) :
    p.text <+: s ∧ p.text ≠ [] := by
  cases p with
  | blank c => exact ⟨h.2, by simp [Piece.text]⟩
  | newline => exact ⟨h, by simp [Piece.text]⟩
  | comment rest =>
    obtain ⟨-, after, rfl, -⟩ := h
    exact ⟨⟨after, by simp [Piece.text]⟩, by simp [Piece.text]⟩
  | token k w => exact ⟨h.2.1, h.1.ne_nil⟩
  | unexpected c => exact ⟨h.1, by simp [Piece.text]⟩
  | unterminated rest =>
    obtain ⟨rfl, -⟩ := h
    exact ⟨⟨[], by simp [Piece.text]⟩, by simp [Piece.text]⟩

/-- Where a token stands, no piece of another sort does. -/
theorem fronts_token_unique {p : Piece} {k : Kind} {w s : List Char} (h : (Piece.token k w).Fronts s)
    (hp : p.Fronts s) : p = .token k w := by
  obtain ⟨hlex, hpre, hcomment, hmax⟩ := h
  obtain ⟨c, w, rfl⟩ := List.exists_cons_of_ne_nil hlex.ne_nil
  obtain ⟨after, rfl⟩ := hpre
  obtain ⟨hspace, hcr, htab, hnew⟩ := hlex.head_not_blank
  cases p with
  | blank d =>
    obtain ⟨hd, hpre⟩ := hp
    obtain rfl := (List.cons_prefix_cons.mp hpre).1
    rcases hd with rfl | rfl | rfl
    · exact absurd rfl hspace
    · exact absurd rfl hcr
    · exact absurd rfl htab
  | newline => exact absurd (List.cons_prefix_cons.mp hp).1.symm hnew
  | comment rest =>
    obtain ⟨-, after', heq, -⟩ := hp
    exact absurd ⟨rest ++ after', heq.symm⟩ hcomment
  | token k' w' =>
    obtain ⟨hlex', hpre', -, hmax'⟩ := hp
    -- both are longest, so they have one length and are one beginning of the text
    have hle := hmax k' w' hlex' hpre'
    have hge := hmax' k _ hlex (List.prefix_append _ _)
    have heq : w' = c :: w :=
      (List.prefix_of_prefix_length_le hpre' (List.prefix_append _ _) hle).eq_of_length_le hge
    subst heq
    rw [hlex'.kind_unique hlex]
  | unexpected d => exact absurd (List.prefix_append _ _) (hp.2.1 k _ hlex)
  | unterminated rest =>
    obtain ⟨heq, hno⟩ := hp
    obtain ⟨rfl, rfl⟩ := List.cons.inj heq
    obtain ⟨-, body, rfl, -⟩ := hlex.string_of_quote
    exact absurd (by simp) hno

/-- A piece that is no token is told by the first character alone. -/
theorem eq_of_fronts_not_token {p : Piece} {c : Char} {cs : List Char} (h : p.Fronts (c :: cs))
    (hno : ∀ k w, p ≠ .token k w) :
    p = if c = ' ' ∨ c = '\r' ∨ c = '\t' then .blank c
      else if c = '\n' then .newline
      else if c = '/' then .comment (cs.tail.takeWhile (· != '\n'))
      else if c = '"' then .unterminated cs
      else .unexpected c := by
  -- for each sort of piece, the conditions of the scanner are checked in their order
  cases p with
  | blank d =>
    obtain ⟨hd, hpre⟩ := h
    obtain rfl := (List.cons_prefix_cons.mp hpre).1
    rw [if_pos hd]
  | newline =>
    obtain rfl := (List.cons_prefix_cons.mp h).1
    rfl
  | comment rest =>
    obtain ⟨hnew, after, heq, hend⟩ := h
    obtain ⟨rfl, rfl⟩ := List.cons.inj heq
    have hin : ∀ d ∈ rest, (d != '\n') = true := by
      intro d hd
      simp only [bne_iff_ne, ne_eq]
      rintro rfl
      exact hnew hd
    have hrest : (rest ++ after).takeWhile (· != '\n') = rest := by
      rw [List.takeWhile_append_of_pos hin]
      rcases hend with rfl | hend
      · simp
      · obtain ⟨tail, rfl⟩ := List.head?_eq_some_iff.mp hend
        simp
    rw [List.tail_cons, hrest]
    rfl
  | token k w => exact absurd rfl (hno k w)
  | unexpected d =>
    obtain ⟨hpre, hlex, hspace, hcr, htab, hnew, hquote⟩ := h
    obtain rfl := (List.cons_prefix_cons.mp hpre).1
    have hslash : d ≠ '/' := by
      rintro rfl
      exact hlex .slash ['/'] (.fixed (by decide)) (by simp)
    rw [if_neg (by simp [hspace, hcr, htab]), if_neg hnew, if_neg hslash, if_neg hquote]
  | unterminated rest =>
    obtain ⟨heq, -⟩ := h
    obtain ⟨rfl, rfl⟩ := List.cons.inj heq
    rfl

/-- Two pieces do not stand at the same place. -/
theorem fronts_unique {p q : Piece} {s : List Char} (hp : p.Fronts s) (hq : q.Fronts s) : p = q := by
  by_cases hpt : ∃ k w, p = .token k w
  · obtain ⟨k, w, rfl⟩ := hpt
    exact (fronts_token_unique hp hq).symm
  by_cases hqt : ∃ k w, q = .token k w
  · obtain ⟨k, w, rfl⟩ := hqt
    exact fronts_token_unique hq hp
  cases s with
  | nil => exact absurd (List.prefix_nil.mp hp.text_prefix.1) hp.text_prefix.2
  | cons c cs =>
    rw [eq_of_fronts_not_token hp fun k w h => hpt ⟨k, w, h⟩,
      eq_of_fronts_not_token hq fun k w h => hqt ⟨k, w, h⟩]

/-! ## The cut

The scanner cuts one piece after the other, and each leaves less of the text. -/

/-- With as many rounds as there are characters, the pieces that are read make up the text. -/
theorem isCut_cutAtMost (n : Nat) (s : List Char) (h : s.length ≤ n) : IsCut s (cutAtMost n s) := by
  induction n generalizing s with
  | zero =>
    obtain rfl := List.length_eq_zero_iff.mp (Nat.le_zero.mp h)
    exact .nil
  | succ n ih =>
    cases s with
    | nil => exact .nil
    | cons c cs =>
      have hfront := fronts_ofCons c cs
      obtain ⟨⟨after, hafter⟩, hne⟩ := hfront.text_prefix
      have hdrop : (c :: cs).drop (Piece.ofCons c cs).text.length = after := by
        rw [← hafter, List.drop_left]
      have hlen : (Piece.ofCons c cs).text.length + after.length = (c :: cs).length := by
        rw [← List.length_append, hafter]
      -- a piece is never empty, so the rounds suffice for what is left
      have hpos := List.length_pos_of_ne_nil hne
      rw [cutAtMost, hdrop]
      rw [← hafter] at hfront ⊢
      exact .cons hfront (ih after (by simp only [List.length_cons] at h hlen; omega))

/-- The pieces that are read are a cut of the text. -/
theorem isCut_cut (s : List Char) : IsCut s (cut s) :=
  isCut_cutAtMost s.length s (Nat.le_refl _)

/-- The pieces of a cut make up the text. -/
theorem IsCut.flatMap_text {s : List Char} {ps : List Piece} (h : IsCut s ps) :
    ps.flatMap Piece.text = s := by
  induction h with
  | nil => rfl
  | cons _ _ ih => rw [List.flatMap_cons, ih]

/-- A text has one cut into longest pieces. -/
theorem IsCut.unique {s : List Char} {ps qs : List Piece} (hp : IsCut s ps) (hq : IsCut s qs) :
    ps = qs := by
  -- along one cut: the pieces at the front agree, and so does the text behind them
  induction hp generalizing qs with
  | nil =>
    cases qs with
    | nil => rfl
    | cons q qs =>
      generalize hs : ([] : List Char) = s at hq
      cases hq with
      | cons front _ =>
        have htext := (List.append_eq_nil_iff.mp hs.symm).1
        exact absurd htext front.text_prefix.2
  | @cons p s ps front _ ih =>
    generalize hs : p.text ++ s = t at hq
    cases hq with
    | nil => exact absurd (List.append_eq_nil_iff.mp hs).1 front.text_prefix.2
    | @cons q s' qs front' rest' =>
      rw [← hs] at front'
      obtain rfl := fronts_unique front front'
      obtain rfl := List.append_cancel_left hs
      rw [ih rest']

/-- What follows some pieces of a cut is cut by the other pieces. -/
theorem IsCut.drop {s : List Char} {before ps : List Piece} (h : IsCut s (before ++ ps)) :
    ∃ s', IsCut s' ps := by
  induction before generalizing s with
  | nil => exact ⟨s, h⟩
  | cons p before ih =>
    cases h with
    | cons _ rest => exact ih rest

/-- A string without its closing quote is the last piece. -/
theorem IsCut.unterminated_last {s rest : List Char} {before after : List Piece}
    (h : IsCut s (before ++ .unterminated rest :: after)) : after = [] := by
  obtain ⟨s, h⟩ := h.drop
  cases h with
  | @cons _ s' _ front tail =>
    have hs : s' = [] := by
      have heq := front.1
      simpa [Piece.text] using heq
    subst hs
    exact tail.unique .nil

/-- The tokens of a cut are lexemes. -/
theorem IsCut.lexeme_of_mem {s : List Char} {ps : List Piece} (h : IsCut s ps) {k : Kind}
    {w : List Char} (hmem : .token k w ∈ ps) : Lexeme k w := by
  obtain ⟨before, after, rfl⟩ := List.append_of_mem hmem
  obtain ⟨s, h⟩ := h.drop
  cases h with
  | cons front _ => exact front.1

end LoxLang
