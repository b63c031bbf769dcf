import LoxLang.Token.Scan
import Mathlib.Data.List.Basic
import Mathlib.Tactic.Common

/-!
# Lexemes and the pieces of a text, by rules

What a lexeme is, and which piece stands at the front of a text, said without any reading from left to right:

* **`Lexeme`** — the texts of each kind of token: fixed signs, numbers, strings and words.
* **`Piece.Fronts`** — a piece stands at the front of a text. A token is the longest lexeme there; a comment
  wins over a slash; an unexpected character is one that nothing else begins with.
* **`IsCut`** — a list of pieces, each of which stands at the front of what the ones before it leave.

The last section collects what the first character of a lexeme says about the rest of it.
-/

namespace LoxLang

/-! ## Rules

No rule reads from left to right. What makes the scanner take the longest piece is said once, in `Piece.Fronts`. -/

/-- The lexemes that are always spelled the same and are no words. -/
def fixedLexemes : List (List Char × Kind) :=
  [(['('], .leftParen), ([')'], .rightParen), (['\x7b'], .leftBrace), (['\x7d'], .rightBrace),
   ([','], .comma), (['.'], .dot), (['-'], .minus), (['+'], .plus), ([';'], .semicolon),
   (['/'], .slash), (['*'], .star), (['!'], .bang), (['!', '='], .bangEqual), (['='], .equal),
   (['=', '='], .equalEqual), (['>'], .greater), (['>', '='], .greaterEqual), (['<'], .less),
   (['<', '='], .lessEqual)]

/-- A letter from `a` to `z` in either case, or an underscore. -/
def IsLetter (c : Char) : Prop :=
  'a' ≤ c ∧ c ≤ 'z' ∨ 'A' ≤ c ∧ c ≤ 'Z' ∨ c = '_'

/-- A digit from `0` to `9`. -/
def IsDigit (c : Char) : Prop :=
  '0' ≤ c ∧ c ≤ '9'

/-- `Lexeme k w`: the characters `w` spell a token of kind `k`. -/
inductive Lexeme : Kind → List Char → Prop where
  | fixed {k : Kind} {w : List Char} (h : (w, k) ∈ fixedLexemes) : Lexeme k w
  | whole {ds : List Char} (hne : ds ≠ []) (hds : ∀ c ∈ ds, IsDigit c) : Lexeme .number ds
  | fraction {ds fs : List Char} (hne : ds ≠ []) (hds : ∀ c ∈ ds, IsDigit c)
      (fne : fs ≠ []) (hfs : ∀ c ∈ fs, IsDigit c) : Lexeme .number (ds ++ '.' :: fs)
  | string {body : List Char} (h : '"' ∉ body) : Lexeme .string ('"' :: (body ++ ['"']))
  | keyword {k : Kind} {w : List Char} (h : (String.ofList w, k) ∈ Kind.keywords) : Lexeme k w
  | identifier {c : Char} {w : List Char} (hc : IsLetter c) (hw : ∀ d ∈ w, IsLetter d ∨ IsDigit d)
      (h : ∀ k, (String.ofList (c :: w), k) ∉ Kind.keywords) : Lexeme .identifier (c :: w)

/-- `p.Fronts s`: the piece `p` stands at the front of the text `s`. -/
def Piece.Fronts (s : List Char) : Piece → Prop
  | blank c => (c = ' ' ∨ c = '\r' ∨ c = '\t') ∧ [c] <+: s
  | newline => ['\n'] <+: s
  | comment rest =>
    '\n' ∉ rest ∧ ∃ after, s = '/' :: '/' :: (rest ++ after) ∧ (after = [] ∨ after.head? = some '\n')
  | token kind lexeme =>
    Lexeme kind lexeme ∧ lexeme <+: s ∧ ¬ ['/', '/'] <+: s
      ∧ ∀ k w, Lexeme k w → w <+: s → w.length ≤ lexeme.length
  | unexpected c =>
    [c] <+: s ∧ (∀ k w, Lexeme k w → ¬ w <+: s)
      ∧ c ≠ ' ' ∧ c ≠ '\r' ∧ c ≠ '\t' ∧ c ≠ '\n' ∧ c ≠ '"'
  | unterminated rest => s = '"' :: rest ∧ '"' ∉ rest

/-- `IsCut s ps`: the pieces `ps` make up the text `s`, and each stands at the front of what is left. -/
inductive IsCut : List Char → List Piece → Prop where
  | nil : IsCut [] []
  | cons {p : Piece} {s : List Char} {ps : List Piece}
      (front : p.Fronts (p.text ++ s)) (rest : IsCut s ps) : IsCut (p.text ++ s) (p :: ps)

/-! ## Character classes

The scanner's tests of characters are the classes of the rules. -/

theorem isDigit_iff {c : Char} : c.isDigit = true ↔ IsDigit c := by
  simp only [Char.isDigit, IsDigit, Bool.and_eq_true, decide_eq_true_eq]
  rfl

theorem isWordStart_iff {c : Char} : isWordStart c = true ↔ IsLetter c := by
  have hupper : c.isUpper = true ↔ 'A' ≤ c ∧ c ≤ 'Z' := decide_eq_true_iff
  have hlower : c.isLower = true ↔ 'a' ≤ c ∧ c ≤ 'z' := by
    show (decide ('a' ≤ c) && decide (c ≤ 'z')) = true ↔ _
    rw [Bool.and_eq_true, decide_eq_true_iff, decide_eq_true_iff]
  show (c.isUpper || c.isLower || c == '_') = true ↔ _
  rw [Bool.or_eq_true, Bool.or_eq_true, hupper, hlower, beq_iff_eq, IsLetter]
  tauto

theorem isWordRest_iff {c : Char} : isWordRest c = true ↔ IsLetter c ∨ IsDigit c := by
  rw [isWordRest, Bool.or_eq_true, isWordStart_iff, isDigit_iff]

instance (c : Char) : Decidable (IsDigit c) := inferInstanceAs (Decidable (_ ∧ _))

instance (c : Char) : Decidable (IsLetter c) := inferInstanceAs (Decidable (_ ∨ _))

/-- No letter is a digit. -/
theorem IsLetter.not_isDigit {c : Char} (h : IsLetter c) : ¬ IsDigit c := by
  rintro ⟨h₀, h₉⟩
  rcases h with ⟨h₁, _⟩ | ⟨h₁, _⟩ | rfl
  · exact absurd (Char.le_trans h₁ h₉) (by decide)
  · exact absurd (Char.le_trans h₁ h₉) (by decide)
  · exact absurd h₉ (by decide)

/-! ## Words

A word is a keyword if the table has it, and a name otherwise. -/

/-- A reserved word is made of letters, and there is at least one. -/
theorem letters_of_keyword {w : List Char} {k : Kind} (h : (String.ofList w, k) ∈ Kind.keywords) :
    w ≠ [] ∧ ∀ c ∈ w, IsLetter c := by
  have hall : ∀ p ∈ Kind.keywords, p.1.toList ≠ [] ∧ p.1.toList.all (fun c => decide (IsLetter c)) = true := by
    decide
  simpa using hall _ h

/-- A keyword has its own kind. -/
theorem ofWord_of_mem {word : String} {k : Kind} (h : (word, k) ∈ Kind.keywords) :
    Kind.ofWord word = k := by
  have hall : ∀ p ∈ Kind.keywords, Kind.ofWord p.1 = p.2 := by decide
  exact hall _ h

/-- Any other word is a name. -/
theorem ofWord_of_forall_notMem {word : String} (h : ∀ k, (word, k) ∉ Kind.keywords) :
    Kind.ofWord word = .identifier := by
  have hnone : Kind.keywords.lookup word = none := by
    rw [List.lookup_eq_none_iff]
    rintro ⟨w, k⟩ hmem
    simp only [bne_iff_ne, ne_eq]
    rintro rfl
    exact h k hmem
  rw [Kind.ofWord, hnone, Option.getD_none]

/-- A letter with letters and digits behind it spells a token, whose kind is the kind of the word. -/
theorem lexeme_word {c : Char} {w : List Char} (hc : IsLetter c)
    (hw : ∀ d ∈ w, IsLetter d ∨ IsDigit d) :
    Lexeme (Kind.ofWord (String.ofList (c :: w))) (c :: w) := by
  by_cases h : ∃ k, (String.ofList (c :: w), k) ∈ Kind.keywords
  · obtain ⟨k, hk⟩ := h
    rw [ofWord_of_mem hk]
    exact .keyword hk
  · have h' : ∀ k, (String.ofList (c :: w), k) ∉ Kind.keywords := fun k hk => h ⟨k, hk⟩
    rw [ofWord_of_forall_notMem h']
    exact .identifier hc hw h'

/-! ## Lexemes by their first character

Two lexemes that begin alike are of the same sort, so that the longest one can be looked for within one sort. -/

/-- The characters that a sign begins with. -/
theorem head_of_fixed {c : Char} {w : List Char} {k : Kind} (h : (c :: w, k) ∈ fixedLexemes) :
    ¬ IsDigit c ∧ ¬ IsLetter c ∧ c ≠ '"' ∧ c ≠ ' ' ∧ c ≠ '\r' ∧ c ≠ '\t' ∧ c ≠ '\n' := by
  have hall : ∀ p ∈ fixedLexemes, p.1.head?.all (fun c => decide (¬ IsDigit c ∧ ¬ IsLetter c ∧ c ≠ '"'
      ∧ c ≠ ' ' ∧ c ≠ '\r' ∧ c ≠ '\t' ∧ c ≠ '\n')) = true := by decide
  exact of_decide_eq_true (hall _ h)

/-- The first character of a lexeme tells what sort of lexeme it is. -/
theorem Lexeme.cases_head {k : Kind} {c : Char} {w : List Char} (h : Lexeme k (c :: w)) :
    (c :: w, k) ∈ fixedLexemes
      ∨ (IsDigit c ∧ k = .number)
      ∨ (c = '"' ∧ k = .string ∧ ∃ body, w = body ++ ['"'] ∧ '"' ∉ body)
      ∨ (IsLetter c ∧ k = Kind.ofWord (String.ofList (c :: w)) ∧ ∀ d ∈ w, IsLetter d ∨ IsDigit d) := by
  generalize hs : c :: w = s at h
  -- rule by rule
  cases h with
  | fixed h => exact .inl h
  | whole hne hds =>
    subst hs
    exact .inr (.inl ⟨hds c (by simp), rfl⟩)
  | @fraction ds fs hne hds fne hfs =>
    cases ds with
    | nil => exact absurd rfl hne
    | cons d ds =>
      obtain ⟨rfl, -⟩ := List.cons.inj hs
      exact .inr (.inl ⟨hds c (by simp), rfl⟩)
  | @string body hbody =>
    obtain ⟨rfl, rfl⟩ := List.cons.inj hs
    exact .inr (.inr (.inl ⟨rfl, rfl, body, rfl, hbody⟩))
  | keyword hk =>
    subst hs
    obtain ⟨-, hletters⟩ := letters_of_keyword hk
    refine .inr (.inr (.inr ⟨hletters c (by simp), (ofWord_of_mem hk).symm, fun d hd => .inl ?_⟩))
    exact hletters d (by simp [hd])
  | @identifier c' w' hc hw hno =>
    obtain ⟨rfl, rfl⟩ := List.cons.inj hs
    exact .inr (.inr (.inr ⟨hc, (ofWord_of_forall_notMem hno).symm, hw⟩))

/-- No lexeme is empty. -/
theorem Lexeme.ne_nil {k : Kind} {w : List Char} (h : Lexeme k w) : w ≠ [] := by
  cases h with
  | fixed h =>
    have hall : ∀ p ∈ fixedLexemes, p.1 ≠ [] := by decide
    exact hall _ h
  | whole hne _ => exact hne
  | fraction hne _ _ _ => simp
  | string _ => simp
  | keyword hk => exact (letters_of_keyword hk).1
  | identifier _ _ _ => simp

/-- A lexeme that begins with a digit is a number. -/
theorem Lexeme.number_of_digit {k : Kind} {c : Char} {w : List Char} (h : Lexeme k (c :: w))
    (hc : IsDigit c) : k = .number := by
  rcases h.cases_head with hf | ⟨-, hk⟩ | ⟨rfl, -⟩ | ⟨hl, -⟩
  · exact absurd hc (head_of_fixed hf).1
  · exact hk
  · exact absurd hc (by decide)
  · exact absurd hc hl.not_isDigit

/-- A lexeme that begins with a letter is a word. -/
theorem Lexeme.word_of_letter {k : Kind} {c : Char} {w : List Char} (h : Lexeme k (c :: w))
    (hc : IsLetter c) :
    k = Kind.ofWord (String.ofList (c :: w)) ∧ ∀ d ∈ w, IsLetter d ∨ IsDigit d := by
  rcases h.cases_head with hf | ⟨hd, -⟩ | ⟨rfl, -⟩ | ⟨-, hk, hw⟩
  · exact absurd hc (head_of_fixed hf).2.1
  · exact absurd hd hc.not_isDigit
  · exact absurd hc (by decide)
  · exact ⟨hk, hw⟩

/-- A lexeme that begins with a quote is a string and ends at the next quote. -/
theorem Lexeme.string_of_quote {k : Kind} {w : List Char} (h : Lexeme k ('"' :: w)) :
    k = .string ∧ ∃ body, w = body ++ ['"'] ∧ '"' ∉ body := by
  rcases h.cases_head with hf | ⟨hd, -⟩ | ⟨-, hk, hbody⟩ | ⟨hl, -⟩
  · exact absurd rfl (head_of_fixed hf).2.2.1
  · exact absurd hd (by decide)
  · exact ⟨hk, hbody⟩
  · exact absurd hl (by decide)

/-- A lexeme that begins with no digit, letter or quote is a sign. -/
theorem Lexeme.fixed_of_sign {k : Kind} {c : Char} {w : List Char} (h : Lexeme k (c :: w))
    (hd : ¬ IsDigit c) (hl : ¬ IsLetter c) (hq : c ≠ '"') : (c :: w, k) ∈ fixedLexemes := by
  rcases h.cases_head with hf | ⟨hd', -⟩ | ⟨hq', -⟩ | ⟨hl', -⟩
  · exact hf
  · exact absurd hd' hd
  · exact absurd hq' hq
  · exact absurd hl' hl

/-- The characters of a lexeme determine its kind. -/
theorem Lexeme.kind_unique {k k' : Kind} {w : List Char} (h : Lexeme k w) (h' : Lexeme k' w) :
    k = k' := by
  obtain ⟨c, w, rfl⟩ := List.exists_cons_of_ne_nil h.ne_nil
  rcases h.cases_head with hf | ⟨hd, rfl⟩ | ⟨rfl, rfl, -⟩ | ⟨hl, rfl, -⟩
  · obtain ⟨hd, hl, hq, -⟩ := head_of_fixed hf
    have hall : ∀ p ∈ fixedLexemes, ∀ q ∈ fixedLexemes, p.1 = q.1 → p.2 = q.2 := by decide
    exact hall _ hf _ (h'.fixed_of_sign hd hl hq) rfl
  · exact (h'.number_of_digit hd).symm
  · exact h'.string_of_quote.1.symm
  · exact (h'.word_of_letter hl).1.symm

/-- No lexeme is the end. -/
theorem Lexeme.kind_ne_eof {k : Kind} {w : List Char} (h : Lexeme k w) : k ≠ .eof := by
  cases h with
  | fixed h =>
    have hall : ∀ p ∈ fixedLexemes, p.2 ≠ .eof := by decide
    exact hall _ h
  | keyword h =>
    have hall : ∀ p ∈ Kind.keywords, p.2 ≠ .eof := by decide
    exact hall _ h
  | _ => decide

/-- No lexeme begins with a blank or a newline. -/
theorem Lexeme.head_not_blank {k : Kind} {c : Char} {w : List Char} (h : Lexeme k (c :: w)) :
    c ≠ ' ' ∧ c ≠ '\r' ∧ c ≠ '\t' ∧ c ≠ '\n' := by
  rcases h.cases_head with hf | ⟨hd, -⟩ | ⟨rfl, -⟩ | ⟨hl, -⟩
  · exact (head_of_fixed hf).2.2.2
  · refine ⟨?_, ?_, ?_, ?_⟩ <;> rintro rfl <;> exact absurd hd (by decide)
  · decide
  · refine ⟨?_, ?_, ?_, ?_⟩ <;> rintro rfl <;> exact absurd hl (by decide)

end LoxLang
