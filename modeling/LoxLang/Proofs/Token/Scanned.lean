import LoxLang.Proofs.Token.Reading

/-!
# What tokens of a text say

A token of a text says what its lexeme is. All kinds but identifiers, strings and numbers have one spelling, so their
tokens differ in their lines only.

* **`scan_scanned`** — every token of a text but the end is read off a lexeme.
* **`Token.Scanned.spelling`** — its lexeme and its literal, where its kind has one spelling.
-/

namespace LoxLang

/-! ## Finite literals

Digits without end may denote more than the largest double. -/

/-- Whether a literal is not infinite and not NaN. -/
def Literal.isFinite : Literal → Bool
  | .number x => x.isFinite
  | _ => true

/-- A token with such a literal. -/
abbrev Token.IsFinite (t : Token) : Prop :=
  t.literal.isFinite = true

/-! ## Tokens of a text

Each token comes from a piece of the cut. -/

/-- A token that is read off a lexeme, or the end. -/
def Token.Scanned (t : Token) : Prop :=
  t.kind ≠ .eof → ∃ w, Lexeme t.kind w ∧ t.lexeme = String.ofList w ∧ t.literal = .ofLexeme t.kind w

/-- The tokens of pieces are read off their lexemes. -/
theorem tokensFrom_scanned (line : Nat) {ps : List Piece} (hps : ∀ k w, .token k w ∈ ps → Lexeme k w) :
    ∀ t ∈ tokensFrom line ps, t.Scanned := by
  induction ps generalizing line with
  | nil =>
    intro t ht
    obtain rfl := List.mem_singleton.mp ht
    exact fun h => absurd rfl h
  | cons p ps ih =>
    intro t ht
    rw [tokensFrom, List.mem_append] at ht
    rcases ht with ht | ht
    · cases p with
      | token k w =>
        obtain rfl := List.mem_singleton.mp ht
        exact fun _ => ⟨w, hps k w List.mem_cons_self, rfl, rfl⟩
      | _ => cases ht
    · exact ih _ (fun k w hw => hps k w (List.mem_cons_of_mem p hw)) t ht

/-- The tokens of a text are read off lexemes. -/
theorem scan_scanned (source : String) : ∀ t ∈ (scan source).tokens, t.Scanned :=
  tokensFrom_scanned 1 fun _ _ hw => (isCut_cut source.toList).lexeme_of_mem hw

/-! ## Spelling

A table from kinds to spellings, with the keywords and the fixed signs in it. -/

/-- The texts that are always of one kind, with that kind. -/
def Kind.spellings : List (String × Kind) :=
  fixedLexemes.map (fun (w, k) => (String.ofList w, k)) ++ keywords

/-- The spelling of a kind that has only one. -/
def Kind.spelling (k : Kind) : String :=
  (spellings.find? (·.2 == k)).elim "" (·.1)

/-- The kinds that have many spellings or none. -/
def Kind.unspelled : List Kind :=
  [.identifier, .string, .number, .eof]

theorem spelled_of_fixed {k : Kind} {w : List Char} (h : (w, k) ∈ fixedLexemes) : k ∉ Kind.unspelled := by
  have hall : ∀ p ∈ fixedLexemes, p.2 ∉ Kind.unspelled := by decide
  exact hall _ h

theorem spelled_of_keyword {k : Kind} {w : String} (h : (w, k) ∈ Kind.keywords) : k ∉ Kind.unspelled := by
  have hall : ∀ p ∈ Kind.keywords, p.2 ∉ Kind.unspelled := by decide
  exact hall _ h

/-- The lexeme of a kind with one spelling is that spelling. -/
theorem Lexeme.spelling {k : Kind} {w : List Char} (h : Lexeme k w) (hk : k ∉ Kind.unspelled) :
    String.ofList w = k.spelling := by
  cases h with
  | fixed hf =>
    have hall : ∀ p ∈ fixedLexemes, String.ofList p.1 = p.2.spelling := by decide
    exact hall _ hf
  | keyword hw =>
    have hall : ∀ p ∈ Kind.keywords, p.1 = p.2.spelling := by decide
    exact hall _ hw
  | _ => exact absurd hk (by decide)

/-- Such a token has no literal either. -/
theorem Token.Scanned.spelling {t : Token} (h : t.Scanned) (hk : t.kind ∉ Kind.unspelled) :
    t.lexeme = t.kind.spelling ∧ t.literal = .nil := by
  have hne : t.kind ≠ .eof := fun heq => hk (by simp [heq, Kind.unspelled])
  obtain ⟨w, hw, hlexeme, hliteral⟩ := h hne
  refine ⟨hlexeme.trans (hw.spelling hk), ?_⟩
  rw [hliteral]
  -- only numbers and strings have a literal
  unfold Literal.ofLexeme
  split
  next heq => exact absurd hk (by rw [heq]; decide)
  next heq => exact absurd hk (by rw [heq]; decide)
  next => rfl

/-- An identifier is a letter with letters and digits behind it, and no reserved word. -/
theorem Token.Scanned.identifier {t : Token} (h : t.Scanned) (hk : t.kind = .identifier) :
    t.literal = .nil ∧ ∃ c cs, t.lexeme.toList = c :: cs ∧ IsLetter c ∧ (∀ d ∈ cs, IsLetter d ∨ IsDigit d) ∧
      ∀ k, (t.lexeme, k) ∉ Kind.keywords := by
  obtain ⟨w, hw, hlexeme, hliteral⟩ := h (by rw [hk]; decide)
  rw [hk] at hw hliteral
  refine ⟨hliteral, ?_⟩
  rw [hlexeme]
  cases hw with
  | fixed hf => exact absurd (by decide) (spelled_of_fixed hf)
  | keyword hw => exact absurd (by decide) (spelled_of_keyword hw)
  | @identifier c cs hc hcs hno => exact ⟨c, cs, String.toList_ofList, hc, hcs, hno⟩

/-- The literal of a string has no quote. -/
theorem Token.Scanned.string {t : Token} (h : t.Scanned) (hk : t.kind = .string) :
    ∃ s, t.literal = .string s ∧ '"' ∉ s.toList := by
  obtain ⟨w, hw, -, hliteral⟩ := h (by rw [hk]; decide)
  rw [hk] at hw hliteral
  cases hw with
  | fixed hf => exact absurd (by decide) (spelled_of_fixed hf)
  | keyword hw => exact absurd (by decide) (spelled_of_keyword hw)
  | @string body hbody =>
    refine ⟨String.ofList body, ?_, by rwa [String.toList_ofList]⟩
    exact hliteral.trans ((tells_token .string _ 0).string body rfl rfl)

end LoxLang
