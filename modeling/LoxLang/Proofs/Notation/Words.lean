import LoxLang.Proofs.Decimal.Printed
import LoxLang.Proofs.Lines.Trees
import LoxLang.Proofs.Notation.Sexp
import LoxLang.Proofs.Parse.Drawn
import LoxLang.Proofs.Token.Scanned

/-!
# Words of trees

What a tree shows of a token is its lexeme, and of a number its printed text. Both are words, and they tell everything
but the line.

* **`printed_plain_injective`** — finite numbers that are read from a text are told apart by what is printed.
* **`Token.Is.moved_named`**, **`Token.Is.moved_of`**, **`Token.Among.operator`** — a token is read back from its
  lexeme, on no line.
-/

namespace LoxLang

/-! ## Numbers

A number that was read from a text is not negative. It may be infinite, if there were too many digits, but only finite
ones are considered here. -/

/-- A finite number without a minus sign. -/
structure PlainNumber (x : Float) : Prop where
  finite : x.isFinite = true
  nonnegative : (FloatShape.of x).isNegative = false

variable {x y : Float}

/-- It is printed as a numeral without sign. -/
theorem PlainNumber.numeral (h : PlainNumber x) :
    ∃ n, (FloatShape.of x).numeral? = some n ∧ n.Tidy ∧ n.negative = false := by
  have hnonnegative := h.nonnegative
  rcases (isFinite_iff x).mp h.finite with ⟨negative, hshape⟩ | ⟨negative, m, q, narrow, hshape⟩
  · have hn : (FloatShape.of x).numeral? = some ⟨false, ['0'], [], none⟩ := by rw [hshape]; rfl
    exact ⟨_, hn, numeral_tidy hn, rfl⟩
  · have hn : (FloatShape.of x).numeral? = some ((Decimal.shortest m q narrow).numeral negative) := by
      rw [hshape]
      rfl
    rw [hshape] at hnonnegative
    exact ⟨_, hn, numeral_tidy hn, Numeral.ofDigits_negative.trans hnonnegative⟩

theorem PlainNumber.isNaN_eq (h : PlainNumber x) : x.isNaN = false := by
  refine not_isNaN fun hnan => ?_
  obtain ⟨n, hn, -⟩ := h.numeral
  rw [hnan] at hn
  cases hn

/-- Without a minus sign numbers are told apart by what is printed. -/
theorem printed_plain_injective (hx : PlainNumber x) (hy : PlainNumber y)
    (h : Layout.printed.text x = Layout.printed.text y) : x = y := by
  have hchars : Layout.printed.chars (.of x) = Layout.printed.chars (.of y) := by
    rw [← printed_text, ← printed_text, h]
  -- without a minus sign nothing is lost with the sign of a zero
  have hunsigned : ∀ {z}, PlainNumber z → (FloatShape.of z).unsigned = .of z := by
    intro z hz
    have hnonnegative := hz.nonnegative
    cases hshape : FloatShape.of z with
    | zero negative =>
      rw [hshape] at hnonnegative
      cases hnonnegative
      rfl
    | _ => rfl
  have hshapes := printed_injective hx.isNaN_eq hy.isNaN_eq hchars
  rw [hunsigned hx, hunsigned hy] at hshapes
  exact FloatShape.of_injective hshapes

/-- A numeral is written in digits, with a sign, a point or an exponent, and thus without delimiters. -/
theorem Numeral.Tidy.mem_chars {n : Numeral} (h : n.Tidy) {c : Char} (hc : c ∈ n.chars) :
    c.isDigit = true ∨ c ∈ ['.', 'e', '-', '+'] := by
  -- part by part: digits behind the point, the exponent with its letter and its sign, digits before the point, and
  -- the sign
  have hfraction : c ∈ fractionChars n.fraction → c.isDigit = true ∨ c ∈ ['.', 'e', '-', '+'] := by
    unfold fractionChars
    split
    · exact fun hc => nomatch hc
    · intro hc
      rcases List.mem_cons.mp hc with rfl | hc
      · exact .inr (by decide)
      · exact .inl (h.fraction_digits c hc)
  have hexponent : c ∈ exponentChars n.exponent? → c.isDigit = true ∨ c ∈ ['.', 'e', '-', '+'] := by
    cases n.exponent? with
    | none => exact fun hc => nomatch hc
    | some e =>
      intro hc
      rcases List.mem_cons.mp hc with rfl | hc
      · exact .inr (by decide)
      rcases List.mem_cons.mp hc with rfl | hc
      · split <;> exact .inr (by decide)
      · exact .inl (isDigit_of_mem_toDigits hc)
  have hunsigned : c ∈ n.whole ++ fractionChars n.fraction ++ exponentChars n.exponent? →
      c.isDigit = true ∨ c ∈ ['.', 'e', '-', '+'] := by
    intro hc
    rcases List.mem_append.mp hc with hc | hc
    · exact (List.mem_append.mp hc).elim (fun hc => .inl (h.whole_digits c hc)) hfraction
    · exact hexponent hc
  unfold chars Layout.signed at hc
  split at hc
  · rcases List.mem_cons.mp hc with rfl | hc
    · exact .inr (by decide)
    · exact hunsigned hc
  · exact hunsigned hc

/-! ## Words

Words have no blanks, quotes or parentheses in them. -/

/-- No digit ends a word. -/
theorem isDelimiter_digit {c : Char} (h : c.isDigit = true) : Sexp.isDelimiter c = false := by
  refine decide_eq_false fun hc => ?_
  simp only [List.mem_cons, List.not_mem_nil, or_false] at hc
  rcases hc with rfl | rfl | rfl | rfl | rfl <;> exact absurd h (by decide)

theorem isDelimiter_letter {c : Char} (h : IsLetter c) : Sexp.isDelimiter c = false := by
  refine decide_eq_false fun hc => ?_
  simp only [List.mem_cons, List.not_mem_nil, or_false] at hc
  rcases hc with rfl | rfl | rfl | rfl | rfl <;> exact absurd h (by decide)

/-- A printed number is a word that begins with a digit. -/
theorem PlainNumber.word (h : PlainNumber x) : (Sexp.word (Layout.printed.text x)).Proper ∧
    (Layout.printed.text x).toList.head?.any Char.isDigit = true := by
  obtain ⟨n, hn, htidy, hnegative⟩ := h.numeral
  have hchars : (Layout.printed.text x).toList = n.chars := by rw [printed_text, printed_chars hn]
  -- a tidy numeral has a digit before its point, which comes first as there is no sign
  obtain ⟨c, cs, hwhole⟩ := List.exists_cons_of_ne_nil htidy.whole_ne_nil
  have hhead : n.chars.head? = some c := by
    rw [Numeral.chars, hnegative, hwhole]
    rfl
  refine ⟨Sexp.isWord_iff.mpr ⟨?_, fun d hd => ?_⟩, ?_⟩
  · rw [hchars]
    rintro hnil
    rw [hnil] at hhead
    cases hhead
  · rw [hchars] at hd
    rcases htidy.mem_chars hd with hdigit | hmem
    · exact isDelimiter_digit hdigit
    · simp only [List.mem_cons, List.not_mem_nil, or_false] at hmem
      rcases hmem with rfl | rfl | rfl | rfl <;> decide
  · rw [hchars, hhead]
    exact htidy.whole_digits c (by simp [hwhole])

/-! ## Tokens

The kind of a token is told by its lexeme where the printer shows it: an operator is one of a few, and any other word is
a name. -/

/-- A token of a text whose numbers are finite. -/
def Token.Plain (t : Token) : Prop :=
  t.Scanned ∧ t.IsFinite

/-- All tokens on no line. -/
abbrev Lines.none : Lines :=
  fun _ => 0

/-- The token of a kind that has one spelling, on no line. -/
def Token.of (k : Kind) : Token :=
  ⟨k, k.spelling, .nil, 0⟩

/-- An identifier, on no line. -/
def Token.named (w : String) : Token :=
  ⟨.identifier, w, .nil, 0⟩

/-- The token of one of these kinds with a spelling, on no line. -/
def Token.operator? (kinds : List Kind) (w : String) : Option Token :=
  (kinds.find? (·.spelling == w)).map .of

variable {t : Token}

/-- A kind with one spelling tells everything about its tokens but the line. -/
theorem Token.Plain.eq_of (h : t.Plain) (hk : t.kind ∉ Kind.unspelled) :
    t.lexeme = t.kind.spelling ∧ t.moved .none = .of t.kind := by
  obtain ⟨hlexeme, hliteral⟩ := h.1.spelling hk
  refine ⟨hlexeme, ?_⟩
  rw [Token.moved, Token.of, ← hlexeme, ← hliteral]

theorem Token.Is.moved_of {k : Kind} (h : t.Is Token.Plain k) (hk : k ∉ Kind.unspelled) : t.moved .none = .of k := by
  obtain ⟨rfl, hplain⟩ := h
  exact (hplain.eq_of hk).2

theorem Token.Is.moved_named (h : t.Is Token.Plain .identifier) : t.moved .none = .named t.lexeme := by
  obtain ⟨hk, hplain⟩ := h
  rw [Token.moved, Token.named, ← hk, ← (hplain.1.identifier hk).1]

/-- A name is a word. -/
theorem Token.Is.word (h : t.Is Token.Plain .identifier) : (Sexp.word t.lexeme).Proper := by
  obtain ⟨-, c, cs, hlexeme, hc, hcs, -⟩ := h.2.1.identifier h.1
  refine Sexp.isWord_iff.mpr ⟨by simp [hlexeme], fun d hd => ?_⟩
  rw [hlexeme] at hd
  have hd' : IsLetter d ∨ IsDigit d := (List.mem_cons.mp hd).elim (fun heq => .inl (heq ▸ hc)) (hcs d)
  exact hd'.elim isDelimiter_letter fun hdigit => isDelimiter_digit (isDigit_iff.mpr hdigit)

/-- Lists of kinds whose spellings are words that tell them apart. -/
structure OperatorKinds (kinds : List Kind) : Prop where
  spelled : ∀ k ∈ kinds, k ∉ Kind.unspelled
  found : ∀ k ∈ kinds, kinds.find? (·.spelling == k.spelling) = some k
  words : ∀ k ∈ kinds, Sexp.isWord k.spelling = true

/-- An operator is found by its spelling among those that may stand here. -/
theorem Token.Among.operator {kinds : List Kind} (h : t.Among Token.Plain kinds) (hkinds : OperatorKinds kinds) :
    Token.operator? kinds t.lexeme = some (t.moved .none) := by
  obtain ⟨hlexeme, hmoved⟩ := h.2.eq_of (hkinds.spelled t.kind h.1)
  rw [Token.operator?, hlexeme, hkinds.found t.kind h.1, hmoved]
  rfl

/-- An operator is a word. -/
theorem Token.Among.word {kinds : List Kind} (h : t.Among Token.Plain kinds) (hkinds : OperatorKinds kinds) :
    (Sexp.word t.lexeme).Proper := by
  have hword := hkinds.words t.kind h.1
  rwa [← (h.2.eq_of (hkinds.spelled t.kind h.1)).1] at hword

theorem operators_binary : OperatorKinds Kind.binary := by
  constructor <;> decide

theorem operators_logical : OperatorKinds [.or, .and] := by
  constructor <;> decide

theorem operators_unary : OperatorKinds [.bang, .minus] := by
  constructor <;> decide

/-! ## Literals

What a literal shows: a word of the language, a number or a quoted text. -/

/-- The literals of a tree whose tokens are plain. -/
inductive Literal.Plain : Literal → Prop where
  | nil : Plain .nil
  | bool (b : Bool) : Plain (.bool b)
  | number {x : Float} (h : PlainNumber x) : Plain (.number x)
  | string {s : String} (h : '"' ∉ s.toList) : Plain (.string s)

/-- A literal of a tree is the one of a token that was read, or a word's. -/
theorem Literal.Drawn.plain {l : Literal} (h : l.Drawn Token.Plain) : l.Plain := by
  cases h with
  | nil => exact .nil
  | bool b => exact .bool b
  | @token t ht =>
    obtain ⟨hkind, hscanned, hfinite⟩ := ht
    simp only [List.mem_cons, List.not_mem_nil, or_false] at hkind
    rcases hkind with hkind | hkind
    · obtain ⟨w, -, -, hliteral⟩ := hscanned (by rw [hkind]; decide)
      rw [hkind] at hliteral
      rw [Token.IsFinite, hliteral] at hfinite
      rw [hliteral]
      exact .number ⟨hfinite, ofScientific_nonnegative _ _⟩
    · obtain ⟨s, hliteral, hs⟩ := hscanned.string hkind
      rw [hliteral]
      exact .string hs

end LoxLang
